import Mathlib.Data.List.Perm.Subperm
import P4Bricks.Lookup.Model
/-!
# An entry list under its match unit

The entry list keeps no order of its own: entries stand on the linked list
in the order of their handles, because the unit always takes the first free
handle and the list puts a new entry right after the one in the slot below.
Over a run this makes the loop of a lookup meet the live handles in
increasing order, and the cache in front of it hold only answers the loop
would still give.
-/

namespace P4Bricks

namespace Lookup

variable {K : Type*} {el : EntryList K} {live : ℕ → Option K} {size : ℕ}

/-! ## The loop of a lookup -/

/-- The loop ends on the first entry of smallest priority among those that
match below the starting priority, and keeps what it had if there is none. -/
theorem foldl_scanStep (el : EntryList K) (cmp : K → Bool) (l : List ℕ) (m : ℤ) (acc : Option ℕ) :
    ((l.foldl (el.scanStep cmp) (m, acc)).2 = acc ∧
      ∀ j ∈ l, cmp (el.entries j).key → m ≤ (el.entries j).priority) ∨
    ∃ l₁ i l₂, l = l₁ ++ i :: l₂ ∧ (l.foldl (el.scanStep cmp) (m, acc)).2 = some i ∧
      cmp (el.entries i).key ∧ (el.entries i).priority < m ∧
      (∀ j ∈ l₁, cmp (el.entries j).key → (el.entries i).priority < (el.entries j).priority) ∧
      ∀ j ∈ l₂, cmp (el.entries j).key → (el.entries i).priority ≤ (el.entries j).priority := by
  induction l generalizing m acc with
  | nil => exact .inl ⟨rfl, by simp⟩
  | cons i l ih =>
    rw [List.foldl_cons]
    by_cases hi : (el.entries i).priority < m ∧ cmp (el.entries i).key
    · obtain ⟨hlt, hcmp⟩ := hi
      have hstep : el.scanStep cmp (m, acc) i = ((el.entries i).priority, some i) := by
        simp [EntryList.scanStep, hcmp, not_le.mpr hlt]
      rw [hstep]
      rcases ih (el.entries i).priority (some i) with
        ⟨hr, hall⟩ | ⟨l₁, j, l₂, rfl, hr, hj, hlt', h₁, h₂⟩
      · exact .inr ⟨[], i, l, rfl, hr, hcmp, hlt, by simp, hall⟩
      · refine .inr ⟨i :: l₁, j, l₂, rfl, hr, hj, hlt'.trans hlt, ?_, h₂⟩
        rintro k hk
        rcases List.mem_cons.mp hk with rfl | hk
        · exact fun _ => hlt'
        · exact h₁ k hk
    · -- the entry is passed over: too large a priority, or no match
      have hskip : cmp (el.entries i).key → m ≤ (el.entries i).priority := fun hcmp =>
        not_lt.mp fun hlt => hi ⟨hlt, hcmp⟩
      have hstep : el.scanStep cmp (m, acc) i = (m, acc) := by
        unfold EntryList.scanStep
        by_cases hcmp : cmp (el.entries i).key
        · exact if_pos (hskip hcmp)
        · simp [hcmp]
      rw [hstep]
      rcases ih m acc with ⟨hr, hall⟩ | ⟨l₁, j, l₂, rfl, hr, hj, hlt, h₁, h₂⟩
      · refine .inl ⟨hr, fun k hk => ?_⟩
        rcases List.mem_cons.mp hk with rfl | hk
        · exact hskip
        · exact hall k hk
      · refine .inr ⟨i :: l₁, j, l₂, rfl, hr, hj, hlt, ?_, h₂⟩
        rintro k hk hcmp
        rcases List.mem_cons.mp hk with rfl | hk
        · exact hlt.trans_le (hskip hcmp)
        · exact h₁ k hk hcmp

/-- A list of distinct slots is no longer than the table, so a loop over it
ends. -/
theorem length_le_of_lt {l : List ℕ} (hnd : l.Nodup) (hlt : ∀ i ∈ l, i < size) :
    l.length ≤ size := by
  have hsub : l ⊆ List.range size := fun i hi => List.mem_range.mpr (hlt i hi)
  simpa using (List.subperm_of_subset hnd hsub).length_le

/-- A list the pointers spell is the one a loop visits. -/
theorem slots_eq_of_represents {l : List ℕ} (h : el.links.Represents l)
    (hlt : ∀ i ∈ l, i < el.size) : el.slots = l :=
  h.walk_eq (length_le_of_lt h.nodup hlt)

/-! ## The cache -/

/-- A hit is an element of the cache, and moving it to the front adds
nothing. -/
theorem TernaryCache.lookup_spec (c : TernaryCache) (key : ByteContainer) :
    (∀ h, (lookup c key).1 = some h → (key, h) ∈ c) ∧ ∀ e ∈ (lookup c key).2, e ∈ c := by
  unfold TernaryCache.lookup
  split
  · rename_i e he
    have hmem := List.mem_of_find?_eq_some he
    have hkey : e.1 = key := by simpa using List.find?_some he
    refine ⟨fun h hh => ?_, fun e' he' => ?_⟩
    · obtain rfl : e.2 = h := Option.some.inj hh
      rw [← hkey]
      exact hmem
    · rcases List.mem_cons.mp he' with rfl | he'
      · exact hmem
      · exact List.mem_of_mem_erase he'
  · exact ⟨fun h hh => (nomatch hh), fun e he => he⟩

/-- Adding an answer adds no other. -/
theorem TernaryCache.mem_add {c : TernaryCache} {key : ByteContainer} {h : ℕ}
    {e : ByteContainer × ℕ} (he : e ∈ add c key h) : e = (key, h) ∨ e ∈ c := by
  unfold TernaryCache.add at he
  split at he
  · exact .inr he
  · split at he
    · rcases List.mem_cons.mp he with rfl | he
      · exact .inl rfl
      · exact .inr (List.mem_of_mem_dropLast he)
    · rcases List.mem_cons.mp he with rfl | he
      · exact .inl rfl
      · exact .inr he

/-! ## What a plain scan of the live entries returns -/

variable [EntryKey K]

/-- The live handles whose keys match, below the largest priority there is. -/
def Candidate (live : ℕ → Option K) (cmp : K → Bool) (h : ℕ) (k : K) : Prop :=
  live h = some k ∧ cmp k ∧ EntryKey.priority k < intMax

/-- `h` is a candidate of smallest priority, and the lowest such handle. -/
def IsWinner (live : ℕ → Option K) (cmp : K → Bool) (h : ℕ) : Prop :=
  ∃ k, Candidate live cmp h k ∧ ∀ h' k', Candidate live cmp h' k' →
    EntryKey.priority k < EntryKey.priority k' ∨
      EntryKey.priority k = EntryKey.priority k' ∧ h ≤ h'

theorem IsWinner.unique {cmp : K → Bool} {h h' : ℕ} (hw : IsWinner live cmp h)
    (hw' : IsWinner live cmp h') : h = h' := by
  obtain ⟨k, hc, hbest⟩ := hw
  obtain ⟨k', hc', hbest'⟩ := hw'
  rcases hbest h' k' hc' with hlt | ⟨heq, hle⟩
  · rcases hbest' h k hc with hlt' | ⟨heq', -⟩ <;> omega
  · rcases hbest' h k hc with hlt' | ⟨-, hle'⟩ <;> omega

/-! ## The invariant -/

/-- The entry list holds the live entries, in handle order, and every answer
in its cache is the one the loop gives. -/
structure Holds (el : EntryList K) (cmp : ByteContainer → K → Bool) (size : ℕ)
    (live : ℕ → Option K) : Prop where
  represents : el.links.Represents el.slots
  sorted : el.slots.Pairwise (· < ·)
  mem_slots : ∀ i, i ∈ el.slots ↔ (live i).isSome
  size_eq : el.size = size
  lt_size : ∀ i, (live i).isSome → i < size
  entries : ∀ i k, live i = some k → el.entries i = ⟨EntryKey.priority k, k⟩
  distinct : ∀ i j ki kj, live i = some ki → live j = some kj →
    EntryKey.priority ki = EntryKey.priority kj → EntryKey.same ki kj → i = j
  cached : ∀ e ∈ el.cache, el.scan (cmp e.1) = some e.2
  cache_off : el.useCache = false → el.cache = []

variable {cmp : ByteContainer → K → Bool}

/-- **The loop returns the winner.** -/
theorem Holds.scan_spec (h : Holds el cmp size live) (f : K → Bool) :
    (∀ i, el.scan f = some i ↔ IsWinner live f i) ∧
      (el.scan f = none ↔ ∀ i k, ¬ Candidate live f i k) := by
  have hmem : ∀ {i k}, Candidate live f i k → i ∈ el.slots ∧ f (el.entries i).key ∧
      (el.entries i).priority = EntryKey.priority k := by
    intro i k hc
    rw [h.entries i k hc.1]
    exact ⟨(h.mem_slots i).mpr (by rw [hc.1]; rfl), hc.2.1, rfl⟩
  have key : (el.scan f = none ∧ ∀ i k, ¬ Candidate live f i k) ∨
      ∃ i, el.scan f = some i ∧ IsWinner live f i := by
    -- The loop keeps the last entry that lowers the priority, starting from the largest integer.
    rcases foldl_scanStep el f el.slots intMax none with
      ⟨hr, hall⟩ | ⟨l₁, i, l₂, hl, hr, hcmp, hlt, h₁, h₂⟩
    · refine .inl ⟨hr, fun i k hc => ?_⟩
      obtain ⟨hi, hf, hp⟩ := hmem hc
      exact absurd (hall i hi hf) (by rw [hp]; exact not_le.mpr hc.2.2)
    · obtain ⟨k, hk⟩ := Option.isSome_iff_exists.mp ((h.mem_slots i).mp (by rw [hl]; simp))
      rw [h.entries i k hk] at hcmp hlt h₁ h₂
      refine .inr ⟨i, hr, k, ⟨hk, hcmp, hlt⟩, fun j kj hc => ?_⟩
      obtain ⟨hj, hf, hp⟩ := hmem hc
      have hsorted := List.pairwise_append.mp (hl ▸ h.sorted)
      rw [hl] at hj
      -- An entry before it in the list has a larger priority, one after it no smaller one, and
      -- the list goes by slots.
      rcases List.mem_append.mp hj with hj | hj
      · exact .inl (hp ▸ h₁ j hj hf)
      · rcases List.mem_cons.mp hj with rfl | hj
        · obtain rfl := Option.some.inj (hk.symm.trans hc.1)
          exact .inr ⟨rfl, le_rfl⟩
        · have hij : i < j := (List.pairwise_cons.mp hsorted.2.1).1 j hj
          have hle : EntryKey.priority k ≤ EntryKey.priority kj := hp ▸ h₂ j hj hf
          rcases lt_or_eq_of_le hle with hlt | heq
          · exact .inl hlt
          · exact .inr ⟨heq, hij.le⟩
  rcases key with ⟨hnone, hno⟩ | ⟨i, hsome, hwin⟩
  · refine ⟨fun i => ⟨fun hi => ?_, fun ⟨k, hc, _⟩ => absurd hc (hno i k)⟩,
      fun _ => hno, fun _ => hnone⟩
    rw [hnone] at hi
    cases hi
  · refine ⟨fun j => ⟨fun hj => ?_, fun hj => ?_⟩, fun hn => ?_, fun hno => ?_⟩
    · rw [hsome] at hj
      exact Option.some.inj hj ▸ hwin
    · rw [hsome, hwin.unique hj]
    · rw [hsome] at hn
      cases hn
    · obtain ⟨k, hc, -⟩ := hwin
      exact absurd hc (hno i k)

/-- A list that was emptied or never filled holds no entries. -/
theorem holds_empty (hhead : el.links.head = none) (hsize : el.size = size)
    (hcache : el.cache = []) : Holds el cmp size fun _ => none := by
  have hslots : el.slots = [] := by
    unfold EntryList.slots
    rw [hhead]
    cases el.size <;> rfl
  refine ⟨?_, ?_, ?_, hsize, by simp, by simp, by simp, ?_, fun _ => hcache⟩
  · rw [hslots]
    exact ⟨hhead, List.nodup_nil, trivial⟩
  · rw [hslots]
    exact List.Pairwise.nil
  · simp [hslots]
  · simp [hcache]

/-- The cache may hold any answers the loop gives. -/
theorem Holds.setCache (h : Holds el cmp size live) {c : TernaryCache}
    (hc : ∀ e ∈ c, el.scan (cmp e.1) = some e.2) (hoff : el.useCache = false → c = []) :
    Holds { el with cache := c } cmp size live :=
  { h with cached := hc, cache_off := hoff }

/-- A cached answer is the loop's, and reading the cache changes neither. -/
theorem Holds.lookupCache (h : Holds el cmp size live) (key : ByteContainer) :
    (∀ i, (el.lookupCache key).1 = some i → el.scan (cmp key) = some i) ∧
      (el.lookupCache key).2.scan = el.scan ∧ Holds (el.lookupCache key).2 cmp size live := by
  unfold EntryList.lookupCache
  split
  · rename_i hon
    obtain ⟨hhit, hsub⟩ := TernaryCache.lookup_spec el.cache key
    refine ⟨fun i hi => h.cached _ (hhit i hi), rfl, ?_⟩
    exact h.setCache (fun e he => h.cached e (hsub e he)) fun hoff => by simp [hon] at hoff
  · exact ⟨fun i hi => (nomatch hi), rfl, h⟩

/-- Only an answer of the loop is added to the cache. -/
theorem Holds.addCache (h : Holds el cmp size live) {key : ByteContainer} {i : ℕ}
    (hi : el.scan (cmp key) = some i) : Holds (el.addCache key i) cmp size live := by
  unfold EntryList.addCache
  split
  · rename_i hon
    refine h.setCache (fun e he => ?_) fun hoff => by simp [hon] at hoff
    rcases TernaryCache.mem_add he with rfl | he
    · exact hi
    · exact h.cached e he
  · exact h

/-- **A lookup answers what the loop would**, whatever the cache holds and
whether or not it is on, and leaves the entries as they are. -/
theorem Holds.lookup (h : Holds el cmp size live) (key : ByteContainer) :
    (el.lookup key (cmp key)).1 = el.scan (cmp key) ∧
      Holds (el.lookup key (cmp key)).2 cmp size live := by
  obtain ⟨hhit, hscan, hc⟩ := h.lookupCache key
  unfold EntryList.lookup
  rcases hlc : el.lookupCache key with ⟨_ | i, el'⟩
  · rw [hlc] at hscan hc
    simp only at hscan hc ⊢
    rw [← hscan]
    cases hs : el'.scan (cmp key) with
    | some i => exact ⟨rfl, hc.addCache hs⟩
    | none => exact ⟨rfl, hc⟩
  · rw [hlc] at hhit hc
    exact ⟨(hhit i rfl).symm, hc⟩

/-! ## Changing the entries -/

omit [EntryKey K] in
/-- After a change of the entries the cache is empty: it was dropped if it
was on, and held nothing if it was off. -/
theorem cache_invalidate (hoff : el.useCache = false → el.cache = []) :
    el.invalidate.cache = [] := by
  cases hon : el.useCache
  · simp [EntryList.invalidate, hon, hoff hon]
  · simp [EntryList.invalidate, hon]

/-- The invariant after a change: the pointers spell the live handles in
order, and the cache was dropped. -/
theorem holds_of_represents {l : List ℕ} (hrep : el.links.Represents l)
    (hsorted : l.Pairwise (· < ·)) (hmem : ∀ i, i ∈ l ↔ (live i).isSome)
    (hsize : el.size = size) (hlt : ∀ i, (live i).isSome → i < size)
    (hentries : ∀ i k, live i = some k → el.entries i = ⟨EntryKey.priority k, k⟩)
    (hdistinct : ∀ i j ki kj, live i = some ki → live j = some kj →
      EntryKey.priority ki = EntryKey.priority kj → EntryKey.same ki kj → i = j)
    (hcache : el.cache = []) : Holds el cmp size live := by
  have hslots : el.slots = l := slots_eq_of_represents hrep fun i hi => by
    rw [hsize]
    exact hlt i ((hmem i).mp hi)
  exact ⟨hslots ▸ hrep, hslots ▸ hsorted, hslots ▸ hmem, hsize, hlt, hentries, hdistinct,
    by simp [hcache], fun _ => hcache⟩

/-- The first free handle splits the live handles: all below it, none at it. -/
theorem Holds.getHandle_split (h : Holds el cmp size live) {i : ℕ} (hfree : live i = none)
    (hbelow : ∀ j < i, (live j).isSome) :
    i ∉ el.slots ∧ (i = 0 → ∀ j ∈ el.slots, 0 < j) ∧
      (i ≠ 0 → ∃ l₁ l₂, el.slots = l₁ ++ (i - 1) :: l₂ ∧ (∀ j ∈ l₁, j < i) ∧ ∀ j ∈ l₂, i < j) := by
  have hi : i ∉ el.slots := fun hi => by
    rw [h.mem_slots, hfree] at hi
    cases hi
  have hne : ∀ j ∈ el.slots, j ≠ i := fun j hj hji => hi (hji ▸ hj)
  refine ⟨hi, fun h0 j hj => ?_, fun h0 => ?_⟩
  · have := hne j hj
    omega
  · obtain ⟨l₁, l₂, hl⟩ := List.append_of_mem ((h.mem_slots (i - 1)).mpr (hbelow _ (by omega)))
    obtain ⟨-, hright, hcross⟩ := List.pairwise_append.mp (hl ▸ h.sorted)
    refine ⟨l₁, l₂, hl, fun j hj => ?_, fun j hj => ?_⟩
    · have := hcross j hj (i - 1) (by simp)
      omega
    · have := (List.pairwise_cons.mp hright).1 j hj
      have := hne j (by rw [hl]; simp [hj])
      omega

/-- **A key added under the first free handle** joins the list in its
place. -/
theorem Holds.add (h : Holds el cmp size live) {key : K} {i : ℕ} (hi : i < size)
    (hfree : live i = none) (hbelow : ∀ j < i, (live j).isSome)
    (hnew : el.findEntry key = none) :
    Holds (el.add key i) cmp size (Function.update live i (some key)) := by
  obtain ⟨hnot, hzero, hsucc⟩ := h.getHandle_split hfree hbelow
  have hlive : ∀ j k, Function.update live i (some key) j = some k →
      (j = i ∧ k = key) ∨ (j ≠ i ∧ live j = some k) := by
    intro j k hj
    by_cases hji : j = i
    · subst hji
      rw [Function.update_self] at hj
      exact .inl ⟨rfl, (Option.some.inj hj).symm⟩
    · rw [Function.update_of_ne hji] at hj
      exact .inr ⟨hji, hj⟩
  have hother : ∀ j k, live j = some k →
      ¬ (EntryKey.priority k = EntryKey.priority key ∧ EntryKey.same k key) := by
    intro j k hj hsame
    have hj' := List.find?_eq_none.mp hnew j ((h.mem_slots j).mpr (by rw [hj]; rfl))
    rw [h.entries j k hj] at hj'
    exact hj' (by simp [hsame.1, hsame.2])
  -- where the new handle lands on the list
  obtain ⟨l, hrep, hsorted, hmem⟩ : ∃ l, (if i = 0 then el.links.insertHead i
      else el.links.insertAfter (i - 1) i).Represents l ∧ l.Pairwise (· < ·) ∧
      ∀ j, j ∈ l ↔ j = i ∨ j ∈ el.slots := by
    by_cases h0 : i = 0
    · rw [if_pos h0]
      refine ⟨i :: el.slots, h.represents.insertHead hnot, ?_, fun j => List.mem_cons⟩
      exact List.pairwise_cons.mpr ⟨fun j hj => h0 ▸ hzero h0 j hj, h.sorted⟩
    · obtain ⟨l₁, l₂, hl, hlt, hgt⟩ := hsucc h0
      rw [if_neg h0]
      have hrep := h.represents
      rw [hl] at hrep hnot
      refine ⟨_, hrep.insertAfter hnot, ?_, fun j => ?_⟩
      · obtain ⟨hs₁, hs₂, hcross⟩ := List.pairwise_append.mp (hl ▸ h.sorted)
        obtain ⟨hlt₂, hs₂⟩ := List.pairwise_cons.mp hs₂
        refine List.pairwise_append.mpr ⟨hs₁, List.pairwise_cons.mpr ⟨?_,
          List.pairwise_cons.mpr ⟨hgt, hs₂⟩⟩, ?_⟩
        · intro j hj
          rcases List.mem_cons.mp hj with rfl | hj
          · omega
          · exact hlt₂ j hj
        · intro a ha b hb
          rcases List.mem_cons.mp hb with rfl | hb
          · exact hcross a ha _ (by simp)
          · rcases List.mem_cons.mp hb with rfl | hb
            · exact hlt a ha
            · exact hcross a ha b (by simp [hb])
      · rw [hl]
        simp only [List.mem_append, List.mem_cons]
        tauto
  refine holds_of_represents hrep hsorted ?_ h.size_eq ?_ ?_ ?_ (cache_invalidate h.cache_off)
  · intro j
    rw [hmem, h.mem_slots]
    by_cases hji : j = i
    · simp [hji]
    · simp [hji]
  · intro j hj
    obtain ⟨k, hk⟩ := Option.isSome_iff_exists.mp hj
    rcases hlive j k hk with ⟨rfl, -⟩ | ⟨-, hj⟩
    · exact hi
    · exact h.lt_size j (by rw [hj]; rfl)
  · intro j k hk
    rcases hlive j k hk with ⟨rfl, rfl⟩ | ⟨hji, hj⟩
    · exact Function.update_self ..
    · exact (Function.update_of_ne hji ..).trans (h.entries j k hj)
  · intro a b ka kb hka hkb hprio hsame
    rcases hlive a ka hka with ⟨rfl, rfl⟩ | ⟨-, ha⟩ <;>
      rcases hlive b kb hkb with ⟨rfl, rfl⟩ | ⟨-, hb⟩
    · rfl
    · exact absurd ⟨hprio.symm, EntryKey.same_comm ka kb ▸ hsame⟩ (hother b kb hb)
    · exact absurd ⟨hprio, hsame⟩ (hother a ka ha)
    · exact h.distinct a b ka kb ha hb hprio hsame

/-- A live key is found under its own handle. -/
theorem Holds.findEntry_eq (h : Holds el cmp size live) {i : ℕ} {key : K}
    (hi : live i = some key) : el.findEntry key = some i := by
  have hmem : i ∈ el.slots := (h.mem_slots i).mpr (by rw [hi]; rfl)
  unfold EntryList.findEntry
  cases hf : el.slots.find? fun j => (el.entries j).priority == EntryKey.priority key &&
      EntryKey.same (el.entries j).key key with
  | none =>
    have hself := List.find?_eq_none.mp hf i hmem
    rw [h.entries i key hi] at hself
    exact absurd (by simp [EntryKey.same_self]) hself
  | some j =>
    obtain ⟨k, hk⟩ := Option.isSome_iff_exists.mp
      ((h.mem_slots j).mp (List.mem_of_find?_eq_some hf))
    have hsame := List.find?_some hf
    rw [h.entries j k hk, Bool.and_eq_true, beq_iff_eq] at hsame
    rw [h.distinct j i k key hk hi hsame.1 hsame.2]

/-- **Deleting the key of a live handle** takes that handle off the list. -/
theorem Holds.deleteEntry (h : Holds el cmp size live) {i : ℕ} {key : K}
    (hi : live i = some key) :
    Holds (el.deleteEntry key) cmp size (Function.update live i none) := by
  obtain ⟨l₁, l₂, hl⟩ := List.append_of_mem ((h.mem_slots i).mpr (by rw [hi]; rfl))
  have hnot : i ∉ l₁ ++ l₂ :=
    (List.nodup_cons.mp (List.nodup_middle.mp (hl ▸ h.represents.nodup))).1
  have hlive : ∀ j k, Function.update live i none j = some k → live j = some k := by
    intro j k hj
    by_cases hji : j = i
    · subst hji
      rw [Function.update_self] at hj
      cases hj
    · rwa [Function.update_of_ne hji] at hj
  unfold EntryList.deleteEntry
  simp only [h.findEntry_eq hi]
  have hrep := h.represents
  rw [hl] at hrep
  refine holds_of_represents hrep.unlink ?_ ?_ h.size_eq ?_ ?_ ?_ (cache_invalidate h.cache_off)
  · refine h.sorted.sublist ?_
    rw [hl]
    exact List.Sublist.append_left (List.sublist_cons_self ..) l₁
  · intro j
    by_cases hji : j = i
    · simpa [hji] using hnot
    · rw [Function.update_of_ne hji, ← h.mem_slots, hl]
      simp [hji]
  · intro j hj
    obtain ⟨k, hk⟩ := Option.isSome_iff_exists.mp hj
    exact h.lt_size j (by rw [hlive j k hk]; rfl)
  · intro j k hk
    exact h.entries j k (hlive j k hk)
  · intro a b ka kb hka hkb
    exact h.distinct a b ka kb (hlive a ka hka) (hlive b kb hkb)

/-! ## Runs -/

/-- The map still compares `nbytesKey` bytes, and its entry list holds the
client's live entries. -/
def Client.Consistent (nbytesKey : ℕ) (c : Client (EntryMap K) K) : Prop :=
  c.map.nbytesKey = nbytesKey ∧
    Holds c.map.entryList (EntryKey.cmp nbytesKey) c.size c.live

/-- A client of a new map. -/
def Client.create (size nbytesKey : ℕ) (enableCache : Bool) : Client (EntryMap K) K :=
  ⟨EntryMap.create size nbytesKey enableCache, fun _ => none, size⟩

omit [EntryKey K] in
/-- The handle taken is free, in range, and the first such. -/
theorem Client.getHandle_spec {σ : Type*} {c : Client σ K} {i : ℕ}
    (h : c.getHandle = some i) : i < c.size ∧ c.live i = none ∧ ∀ j < i, (c.live j).isSome := by
  obtain ⟨hfree, hi, hbelow⟩ := List.find?_range_eq_some.mp h
  refine ⟨by simpa using hi, by simpa using hfree, fun j hj => ?_⟩
  simpa [Option.isSome_iff_ne_none] using hbelow j hj

/-- **One request keeps the list consistent.** -/
theorem Client.Consistent.apply {n : ℕ} {c : Client (EntryMap K) K} (h : c.Consistent n)
    (op : Op K) : (c.apply op).Consistent n := by
  obtain ⟨hn, hholds⟩ := h
  cases op with
  | add key =>
    rw [Client.apply]
    split
    · exact ⟨hn, hholds⟩
    · rename_i hex
      have hnew : c.map.entryList.findEntry key = none := by
        simpa [LookupStructure.entryExists] using hex
      split
      · exact ⟨hn, hholds⟩
      · rename_i i hg
        obtain ⟨hi, hfree, hbelow⟩ := Client.getHandle_spec hg
        exact ⟨hn, hholds.add hi hfree hbelow hnew⟩
  | delete i =>
    rw [Client.apply]
    split
    · exact ⟨hn, hholds⟩
    · rename_i key hi
      exact ⟨hn, hholds.deleteEntry hi⟩
  | clear => exact ⟨hn, holds_empty rfl hholds.size_eq rfl⟩
  | lookup key =>
    refine ⟨hn, ?_⟩
    subst hn
    exact (hholds.lookup key).2

theorem Client.Consistent.run {n : ℕ} {c : Client (EntryMap K) K} (h : c.Consistent n)
    (ops : List (Op K)) : (c.run ops).Consistent n := by
  induction ops generalizing c with
  | nil => exact h
  | cons op ops ih => exact ih (h.apply op)

theorem Client.create_consistent (size nbytesKey : ℕ) (enableCache : Bool) :
    (Client.create size nbytesKey enableCache : Client (EntryMap K) K).Consistent nbytesKey :=
  ⟨rfl, holds_empty rfl rfl rfl⟩

/-- In a consistent state a lookup returns the winner among the live
entries. -/
theorem Client.Consistent.lookup_spec {n : ℕ} {c : Client (EntryMap K) K} (h : c.Consistent n)
    (key : ByteContainer) :
    (∀ i, (LookupStructure.lookup c.map key).1 = some i ↔
      IsWinner c.live (EntryKey.cmp n key) i) ∧
    ((LookupStructure.lookup c.map key).1 = none ↔
      ∀ i k, ¬ Candidate c.live (EntryKey.cmp n key) i k) := by
  obtain ⟨rfl, hholds⟩ := h
  rw [show (LookupStructure.lookup c.map key).1 =
      c.map.entryList.scan (EntryKey.cmp c.map.nbytesKey key) from (hholds.lookup key).1]
  exact hholds.scan_spec _

/-- **A ternary or range lookup is a plain scan of the live entries.** After
any run of requests, with the cache enabled or not, it returns the matching
entry of smallest priority, the lowest handle among equals, and misses
exactly when no live entry below the largest priority matches. -/
theorem lookup_run_eq_plainScan (size nbytesKey : ℕ) (enableCache : Bool) (key : ByteContainer) :
    (∀ ops : List (Op TernaryMatchKey),
      let c := (Client.create size nbytesKey enableCache : Client TernaryMap _).run ops
      (∀ i, (LookupStructure.lookup c.map key).1 = some i ↔
        IsWinner c.live (TernaryMatchKey.cmp nbytesKey key) i) ∧
      ((LookupStructure.lookup c.map key).1 = none ↔
        ∀ i k, ¬ Candidate c.live (TernaryMatchKey.cmp nbytesKey key) i k)) ∧
    ∀ ops : List (Op RangeMatchKey),
      let c := (Client.create size nbytesKey enableCache : Client RangeMap _).run ops
      (∀ i, (LookupStructure.lookup c.map key).1 = some i ↔
        IsWinner c.live (RangeMatchKey.cmp nbytesKey key) i) ∧
      ((LookupStructure.lookup c.map key).1 = none ↔
        ∀ i k, ¬ Candidate c.live (RangeMatchKey.cmp nbytesKey key) i k) := by
  constructor
  · intro ops c
    exact ((Client.create_consistent size nbytesKey enableCache).run ops).lookup_spec key
  · intro ops c
    exact ((Client.create_consistent size nbytesKey enableCache).run ops).lookup_spec key

/-- An entry that matches every one-byte key, at the largest priority. -/
def lastResort : TernaryMatchKey := { data := [0], mask := [0], priority := intMax }

/-- **A live entry at the largest priority is never returned**, although it
matches and nothing else is live. -/
theorem lookup_misses_lastResort :
    let c := (Client.create 1 1 true : Client TernaryMap _).run [.add lastResort]
    c.live 0 = some lastResort ∧ TernaryMatchKey.cmp 1 [7] lastResort = true ∧
      (LookupStructure.lookup c.map [7]).1 = none := by
  decide

end Lookup

end P4Bricks
