import P4Bricks.Serialization.Parts
/-!
# The dump of a switch

The MD5 sum of the configuration is inserted as it is, sixteen bytes, and extracted as a
word. If one of them is a whitespace character, what is extracted is another text, and
the switch refuses its own dump. When none is, the contexts are read one after the other,
each up to the last text that it wrote, unless there is something in one of them that
can not be read back.
-/

namespace P4Bricks

open Extraction Lookup MatchUnit MatchTables

namespace Serialization

variable {ι R : Type} {σ K : ι → Type} [DecidableEq ι] [∀ t, LookupStructure (σ t) (K t)]
  [∀ t, ReadableKey (K t)] [Rate R]

/-! ## Contexts -/

/-- Two contexts with one configuration, of which the second one has no members and no
groups yet. -/
structure ContextAlike (p : Program ι) (c c₀ : Context ι σ K R) : Prop where
  tables : ∀ t ∈ p.tables, TableAlike (c.tables t) (c₀.tables t)
  counted : ∀ ap ∈ c.actionProfiles, ProfileCounted ap
  profiles : c₀.actionProfiles = c.actionProfiles.map fun ap => .create ap.withSelection
  meters : List.Forall₂ (List.Forall₂ fun m m₀ => m₀.rates.length = m.rates.length)
    c.meterArrays c₀.meterArrays

/-- A context that is read back into a new one. -/
structure ContextReadable (p : Program ι) (c c₀ : Context ι σ K R) : Prop where
  tables : ∀ t ∈ p.tables, TableReadable p.objs (p.tableName t) (c.tables t) (c₀.tables t)
  profiles : ∀ ap ∈ c.actionProfiles, ProfileReadable p.objs ap
  meters : ∀ array ∈ c.meterArrays, ∀ m ∈ array, MeterReadable m

variable {p : Program ι} {c c₀ : Context ι σ K R}

theorem reads_profiles {objs : Objects} {aps : List ActionProfile}
    (h : ∀ ap ∈ aps, ProfileCounted ap) :
    Reads (.all (ActionProfile.serialize objs) aps)
      (Reader.each (ActionProfile.deserialize objs)
        (aps.map fun ap => ActionProfile.create ap.withSelection))
      (∀ ap ∈ aps, ProfileReadable objs ap) fun _ => True := by
  refine (Reads.each (Q := fun _ _ => True) ?_).mono fun _ _ => trivial
  rw [List.forall₂_map_right_iff, List.forall₂_same]
  exact fun ap hap => reads_profile (h ap hap) ap.withSelection

theorem reads_meterArrays {arrays arrays₀ : List (List (Meter R))}
    (h : List.Forall₂ (List.Forall₂ fun m m₀ => m₀.rates.length = m.rates.length) arrays arrays₀) :
    Reads (.all (.all Meter.serialize) arrays) (Reader.each (Reader.each Meter.deserialize) arrays₀)
      (∀ array ∈ arrays, ∀ m ∈ array, MeterReadable m) fun _ => True := by
  refine (Reads.each (Q := fun _ _ => True) (h.imp fun array array₀ harray => ?_)).mono
    fun _ _ => trivial
  exact (Reads.each (Q := fun _ _ => True) (harray.imp fun m m₀ hm => reads_meter hm)).mono
    fun _ _ => trivial

/-- **A context.** -/
theorem reads_context (now : ℕ) (ha : ContextAlike p c c₀) :
    Reads (c.serialize p) (c₀.deserialize p now) (ContextReadable p c c₀) fun _ => True := by
  have hiff : (∀ t ∈ p.tables, TableReadable p.objs (p.tableName t) (c.tables t) (c₀.tables t)) ∧
      (∀ ap ∈ c.actionProfiles, ProfileReadable p.objs ap) ∧
        (∀ array ∈ c.meterArrays, ∀ m ∈ array, MeterReadable m) ∧ True ↔ ContextReadable p c c₀ :=
    ⟨fun h => ⟨h.1, h.2.1, h.2.2.1⟩, fun h => ⟨h.tables, h.profiles, h.meters, trivial⟩⟩
  refine Reads.congr ?_ hiff
  refine (Reads.fold (I := fun l tables => l.Nodup ∧ (∀ t ∈ l, t ∈ p.tables) ∧
    ∀ t ∈ l, tables t = c₀.tables t) ⟨p.nodup, fun _ h => h, fun _ _ => rfl⟩ ?_).bind fun tables _ => ?_
  · rintro t l tables ⟨hnodup, hsub, hsame⟩
    obtain ⟨ht, hnodup⟩ := List.nodup_cons.mp hnodup
    rw [hsame t List.mem_cons_self]
    refine ((reads_table (ha.tables t (hsub t List.mem_cons_self))).map (D := True)
      fun table _ => .pure ?_).congr (and_iff_left trivial)
    refine ⟨hnodup, fun x hx => hsub x (List.mem_cons_of_mem _ hx), fun x hx => ?_⟩
    have hne : x ≠ t := fun heq => ht (heq ▸ hx)
    rw [Function.update_of_ne hne, hsame x (List.mem_cons_of_mem _ hx)]
  · rw [ha.profiles]
    refine (reads_profiles ha.counted).bind fun profiles _ => ?_
    exact (reads_meterArrays ha.meters).map fun meters _ => .done trivial trivial

/-! ## Streams -/

/-- The state of a context that is dumped, and the context it is to be read into. -/
structure Saved (ι : Type) (σ K : ι → Type) (R : Type) where
  program : Program ι
  state : Context ι σ K R
  loaded : Context ι σ K R

/-- The switch writes a dump, and the one that reads it accepts it, with each context
extracting the texts that it wrote. -/
def ReadsBack (md5 : Text) (now : ℕ) (cxts : List (Saved ι σ K R)) : Prop :=
  ∃ dumps stream restored,
    serialize md5 (cxts.map fun c => (c.program, c.state)) = some (dumps, stream) ∧
    deserialize md5 now (cxts.map fun c => (c.program, c.loaded)) stream =
      some (.restored restored) ∧
    restored.map Prod.snd = dumps.map (List.map Item.text)

/-- What every context of the list can be read back from. -/
def ContextsReadable (cxts : List (Saved ι σ K R)) : Prop :=
  ∀ c ∈ cxts, ContextReadable c.program c.state c.loaded

theorem render_append (items items' : List Item) :
    render (items ++ items') = render items ++ render items' :=
  List.flatMap_append

/-- The contexts are written, and read from a stream in which their dumps follow `ws`. -/
def ContextsRead (now : ℕ) (ws : Text) (cxts : List (Saved ι σ K R)) : Prop :=
  ∃ dumps restored,
    (cxts.map fun c => (c.program, c.state)).mapM (fun c => (c.2.serialize c.1).output) =
      some dumps ∧
    deserializeContexts now (cxts.map fun c => (c.program, c.loaded)) (ws ++ render dumps.flatten) =
      some restored ∧
    restored.map Prod.snd = dumps.map (List.map Item.text)

/-- A context that extracts the texts it wrote, and where it leaves off. -/
theorem run_context (now : ℕ) (ha : ContextAlike p c c₀) {items : List Item}
    (hitems : c.serialize p = some items) {ws : Text} (hws : ∀ x ∈ ws, isSpace x = true) (rest : Text) :
    (ContextReadable p c c₀ → ∃ c' ws', (∀ x ∈ ws', isSpace x = true) ∧
      (c₀.deserialize p now).run (ws ++ (render items ++ rest)) =
        some (c', items.map Item.text, ws' ++ rest)) ∧
    (∀ c' s, (c₀.deserialize p now).run (ws ++ (render items ++ rest)) =
      some (c', items.map Item.text, s) → ContextReadable p c c₀) := by
  have hr := reads_context now ha
  constructor
  · intro hC
    obtain ⟨items', c', hitems', -, hfeed⟩ := hr.reads hC
    obtain rfl := Option.some.inj (hitems.symm.trans hitems')
    have hfeed₀ := hfeed []
    rw [List.append_nil] at hfeed₀
    obtain ⟨ws', hws', hrun⟩ := Reader.run_of_feed hws hfeed₀ rest
    exact ⟨c', ws', hws', hrun⟩
  · intro c' s hrun
    by_contra hC
    have hstops := hr.stops hC items hitems []
    rw [List.append_nil, Reader.feed_of_run hws hrun] at hstops
    cases hstops

/-- The contexts one after the other. -/
theorem contextsRead_iff (now : ℕ) {cxts : List (Saved ι σ K R)}
    (ha : ∀ c ∈ cxts, ContextAlike c.program c.state c.loaded) {ws : Text}
    (hws : ∀ x ∈ ws, isSpace x = true) : ContextsRead now ws cxts ↔ ContextsReadable cxts := by
  induction cxts generalizing ws with
  | nil => exact ⟨fun _ c hc => by simp at hc, fun _ => ⟨[], [], rfl, rfl, rfl⟩⟩
  | cons x cxts ih =>
    have hx := ha x List.mem_cons_self
    have hrest := fun c hc => ha c (List.mem_cons_of_mem x hc)
    constructor
    · rintro ⟨dumps, restored, hwrite, hread, htexts⟩
      rw [List.map_cons, List.mapM_cons] at hwrite
      obtain ⟨items, hitems, hwrite⟩ := Option.bind_eq_some_iff.mp hwrite
      obtain ⟨dumps', hdumps', hwrite⟩ := Option.bind_eq_some_iff.mp hwrite
      obtain rfl := Option.some.inj hwrite
      rw [List.flatten_cons, render_append, List.map_cons, deserializeContexts] at hread
      obtain ⟨⟨c', texts, s⟩, hrun, hread⟩ := Option.bind_eq_some_iff.mp hread
      obtain ⟨restored', hread', hread⟩ := Option.bind_eq_some_iff.mp hread
      obtain rfl := Option.some.inj hread
      -- The first context reads its own text and leaves the rest, with the blanks before it, to
      -- the others.
      obtain ⟨htext, htexts'⟩ := List.cons_eq_cons.mp htexts
      have hrun' : (x.loaded.deserialize x.program now).run (ws ++ (render items ++ render dumps'.flatten)) =
          some (c', items.map Item.text, s) := by
        rw [← htext]
        exact hrun
      have hspec := run_context now hx hitems hws (render dumps'.flatten)
      have hC := hspec.2 c' s hrun'
      obtain ⟨c'', ws', hws', hrun''⟩ := hspec.1 hC
      have hs : s = ws' ++ render dumps'.flatten :=
        (Prod.mk.inj (Prod.mk.inj (Option.some.inj (hrun'.symm.trans hrun''))).2).2
      have hread'' : deserializeContexts now (cxts.map fun c => (c.program, c.loaded))
          (ws' ++ render dumps'.flatten) = some restored' := hs ▸ hread'
      intro c hc
      rcases List.mem_cons.mp hc with rfl | hc
      · exact hC
      · exact (ih hrest hws').mp ⟨dumps', restored', hdumps', hread'', htexts'⟩ c hc
    · intro hC
      have hCx := hC x List.mem_cons_self
      obtain ⟨items, -, hitems, -, -⟩ := (reads_context now hx).reads hCx
      -- The others are read whatever blanks the first context leaves before them.
      have hnext : ∀ {ws' : Text}, (∀ y ∈ ws', isSpace y = true) → ContextsRead now ws' cxts :=
        fun hws' => (ih hrest hws').mpr fun c hc => hC c (List.mem_cons_of_mem _ hc)
      obtain ⟨dumps', -, hdumps', -, -⟩ := hnext hws
      obtain ⟨c', ws', hws', hrun⟩ :=
        (run_context now hx hitems hws (render dumps'.flatten)).1 hCx
      obtain ⟨dumps'', restored', hdumps'', hread', htexts'⟩ := hnext hws'
      obtain rfl := Option.some.inj (hdumps'.symm.trans hdumps'')
      refine ⟨items :: dumps', (c', items.map Item.text) :: restored', ?_, ?_, ?_⟩
      · rw [List.map_cons, List.mapM_cons]
        exact Option.bind_eq_some_iff.mpr ⟨items, hitems,
          Option.bind_eq_some_iff.mpr ⟨dumps', hdumps', rfl⟩⟩
      · rw [List.flatten_cons, render_append, List.map_cons, deserializeContexts]
        exact Option.bind_eq_some_iff.mpr ⟨_, hrun, Option.bind_eq_some_iff.mpr ⟨_, hread', rfl⟩⟩
      · rw [List.map_cons, List.map_cons, htexts']

/-- **A switch reads its dump back** if and only if the MD5 sum of its configuration has no
whitespace character in it and each of its contexts can be read back. -/
theorem readsBack_iff (md5 : Text) (hmd5 : md5.length = 16) (now : ℕ) (cxts : List (Saved ι σ K R))
    (ha : ∀ c ∈ cxts, ContextAlike c.program c.state c.loaded) :
    ReadsBack md5 now cxts ↔ (∀ b ∈ md5, isSpace b = false) ∧ ContextsReadable cxts := by
  have hversion : word.Clean versionStr := by decide
  have hbreak : isSpace 10 = true := by decide
  have hone : ∀ x ∈ ([10] : Text), isSpace x = true := by simp [hbreak]
  have hne : md5 ≠ [] := by
    rintro rfl
    simp at hmd5
  have hstream : ∀ dumps : List (List Item), render (line versionStr :: line md5 :: dumps.flatten) =
      versionStr ++ 10 :: (md5 ++ 10 :: render dumps.flatten) := by
    intro dumps
    simp [render, line]
  -- The line break behind the version is skipped.
  have hskip : ∀ s : Text, word.scan (10 :: s) = word.scan s := fun s => by
    rw [← List.singleton_append]
    exact scan_spaces hone
  have hread : ∀ dumps : List (List Item), deserialize md5 now
      (cxts.map fun c => (c.program, c.loaded)) (render (line versionStr :: line md5 :: dumps.flatten)) =
      (word.scan (md5 ++ 10 :: render dumps.flatten)).elim (some .refused) fun x =>
        if x.1 ≠ md5 then some .refused
        else (deserializeContexts now (cxts.map fun c => (c.program, c.loaded)) x.2).map .restored := by
    intro dumps
    rw [hstream, deserialize, scan_clean hversion hbreak]
    dsimp only
    rewrite [if_neg (not_not.mpr rfl), hskip]
    rcases word.scan (md5 ++ 10 :: render dumps.flatten) with - | ⟨md5sum, s⟩ <;> rfl
  constructor
  · rintro ⟨dumps, stream, restored, hwrite, hdes, htexts⟩
    obtain ⟨dumps', hdumps, hwrite⟩ := Option.bind_eq_some_iff.mp hwrite
    obtain ⟨rfl, rfl⟩ := Prod.mk.inj (Option.some.inj hwrite)
    rw [hread] at hdes
    rcases hscan : word.scan (md5 ++ 10 :: render dumps'.flatten) with - | ⟨md5sum, s⟩
    · rw [hscan] at hdes
      cases hdes
    · rw [hscan] at hdes
      rw [Option.elim_some] at hdes
      split_ifs at hdes with hsame
      · cases hdes
      · obtain rfl := not_not.mp hsame
        have hclean := clean_of_scan hbreak hscan
        have hs := (Prod.mk.inj (Option.some.inj ((scan_clean hclean hbreak).symm.trans hscan))).2
        obtain ⟨restored', hcxts, hout⟩ := Option.map_eq_some_iff.mp hdes
        obtain rfl : restored' = restored := by injection hout
        rw [← hs] at hcxts
        exact ⟨hclean.2.1, (contextsRead_iff now ha hone).mp ⟨_, _, hdumps, hcxts, htexts⟩⟩
  · rintro ⟨hspace, hC⟩
    have hclean : word.Clean md5 := clean_word.mpr ⟨hne, hspace⟩
    obtain ⟨dumps, restored, hdumps, hcxts, htexts⟩ := (contextsRead_iff now ha hone).mpr hC
    refine ⟨dumps, _, restored, Option.bind_eq_some_iff.mpr ⟨dumps, hdumps, rfl⟩, ?_, htexts⟩
    rw [hread, scan_clean hclean hbreak, Option.elim_some, if_neg (not_not.mpr rfl)]
    exact Option.map_eq_some_iff.mpr ⟨restored, hcxts, rfl⟩

/-! ## A switch with one table -/

/-- For switches without meters. -/
instance : Rate Unit := ⟨fun _ => [49], number, fun _ => ()⟩

/-- The table is called "t", and its miss goes to no node. -/
def oneTable : Program Unit where
  objs := ⟨fun _ => [116], fun _ => some 0, fun _ => some ⟨1, 1⟩⟩
  tables := [()]
  nodup := List.nodup_singleton _
  tableName := fun _ => [116]

/-- Such a table as it is loaded. -/
def emptyTable : MatchTable ExactMap ExactMatchKey (Meter Unit) where
  matchUnit := .create 8 .create
  withCounters := false
  withAgeing := false
  withMeters := false
  directMeters := fun _ => ⟨[], false⟩
  nextNodes := fun _ => none

/-- And with an entry in its first slot, for a key of one byte. -/
def filledTable : MatchTable ExactMap ExactMatchKey (Meter Unit) where
  toMatchTableAbstract := { emptyTable.toMatchTableAbstract with
    matchUnit := { (MatchUnit.create 8 .create : MatchUnit ExactMap ExactMatchKey ActionEntry) with
      numEntries := 1
      handles := {0}
      entries := fun _ => ⟨⟨[7]⟩, 0, ⟨some ⟨1, 1⟩, [255], none⟩⟩ } }

def ofTable (t : MatchTable ExactMap ExactMatchKey (Meter Unit)) :
    Context Unit (fun _ => ExactMap) (fun _ => ExactMatchKey) Unit :=
  ⟨fun _ => .direct t, [], []⟩

/-- The switch with this state, and the one it is read into. -/
def oneContext : List (Saved Unit (fun _ => ExactMap) (fun _ => ExactMatchKey) Unit) :=
  [⟨oneTable, ofTable filledTable, ofTable emptyTable⟩]

theorem readsBack_oneContext :
    ReadsBack (List.replicate 16 65) 0 oneContext := by
  have hslots : AbstractAlike filledTable.toMatchTableAbstract emptyTable.toMatchTableAbstract :=
    ⟨rfl, rfl, rfl, fun _ => rfl⟩
  have halike : ∀ c ∈ oneContext, ContextAlike c.program c.state c.loaded := by
    intro c hc
    obtain rfl := List.mem_singleton.mp hc
    exact ⟨fun _ _ => .direct hslots, by simp [ofTable], rfl, .nil⟩
  have hmd5 : ∀ b ∈ List.replicate 16 (65 : UInt8), isSpace b = false := by
    intro b hb
    obtain rfl := List.eq_of_mem_replicate hb
    decide
  refine (readsBack_iff (List.replicate 16 65) rfl 0 oneContext halike).mpr ⟨hmd5, ?_⟩
  intro c hc
  obtain rfl := List.mem_singleton.mp hc
  have hname : word.Clean ([116] : Text) := by decide
  refine ⟨fun _ _ => ⟨⟨hname, nofun, fun h hh => ?_, nofun⟩, nofun, nofun⟩, nofun, nofun⟩
  obtain rfl := Finset.mem_singleton.mp hh
  refine ⟨by decide, trivial, ⟨?_, nofun⟩, rfl, Finset.notMem_empty _, by decide⟩
  intro fn hfn
  obtain rfl := Option.some.inj hfn
  exact ⟨rfl, by decide⟩

/-- A switch without contexts whose MD5 sum starts with a blank refuses its dump. -/
theorem refused_blank :
    ¬ReadsBack (32 :: List.replicate 15 65) 0
      ([] : List (Saved Unit (fun _ => ExactMap) (fun _ => ExactMatchKey) Unit)) := by
  rintro ⟨dumps, stream, restored, hwrite, hread, -⟩
  have hdump : serialize (32 :: List.replicate 15 65)
      ([] : List (Program Unit × Context Unit (fun _ => ExactMap) (fun _ => ExactMatchKey) Unit)) =
      some ([], render [line versionStr, line (32 :: List.replicate 15 65)]) := rfl
  obtain ⟨-, rfl⟩ := Prod.mk.inj (Option.some.inj (hdump.symm.trans hwrite))
  have hrefused : deserialize (32 :: List.replicate 15 65) 0
      ([] : List (Program Unit × Context Unit (fun _ => ExactMap) (fun _ => ExactMatchKey) Unit))
      (render [line versionStr, line (32 :: List.replicate 15 65)]) = some .refused := rfl
  cases hrefused.symm.trans hread

end Serialization

end P4Bricks
