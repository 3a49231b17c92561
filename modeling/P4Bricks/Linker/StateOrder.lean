import Mathlib.Logic.Relation
import P4Bricks.Common.Kahn
import P4Bricks.Linker.Programs
/-!
# The order of the states

`bfs_topological_ordering_of_parser_states` follows the exact and the masked cases
of the states, and neither the default transitions nor the cases with a set of
values. So a state that is reached in another way is not taken, and since the
degrees count the cases of all states, nor is one that a state which is not
reachable leads to. A state reached by default alone of a state that is taken has
no place behind it (`ordered_iff_orderable`).
-/

namespace P4Bricks

namespace Linker

/-- The next state of a case with a key; none in a case with a set of values. -/
def ParseSwitchCase.keyedState {Ref : Type} : ParseSwitchCase Ref → Option Ref
  | .exact _ next | .withMask _ _ next => next
  | .vset _ _ _ => none

/-- A case with a key that leads to no state. -/
def ParseSwitchCase.Ends {Ref : Type} : ParseSwitchCase Ref → Prop
  | .exact _ next | .withMask _ _ next => next = none
  | .vset _ _ _ => False

namespace P4Objects

variable (p : P4Objects)

/-- The states that a state leads to by its exact and masked cases, in order. -/
def keyedStates (i : ℕ) : List ℕ :=
  match p.parseStates[i]? with
  | some st => st.parserSwitch.filterMap ParseSwitchCase.keyedState
  | none => []

/-- A state leads to another one by default or by a set of values. -/
def LeadsOtherwise (i j : ℕ) : Prop :=
  ∃ st, p.parseStates[i]? = some st ∧
    (st.defaultNextState = some j ∨ ∃ name mask, .vset name mask (some j) ∈ st.parserSwitch)

/-- A transition of the parse graph. -/
def Leads (i j : ℕ) : Prop := j ∈ p.keyedStates i ∨ p.LeadsOtherwise i j

def Reachable (i : ℕ) : Prop := Relation.ReflTransGen p.Leads p.initState i

/-- **An acyclic parse graph.** States have different names, pointers point to
states, and the transitions into a state can be counted. -/
structure AcyclicGraph : Prop where
  nodup : (p.parseStates.map (·.name)).Nodup
  init_lt : p.initState < p.parseStates.length
  next_lt : ∀ i j, p.Leads i j → j < p.parseStates.length
  acyclic : ∀ i, ¬Relation.TransGen p.Leads i i
  degree_lt : ∀ j, Kahn.inDegree p.keyedStates (List.range p.parseStates.length) j < 2 ^ 32

/-- Every reachable state is listed once, behind its reachable predecessors. -/
def Ordered : Prop :=
  ∃ order, (∃ n, ∀ fuel, n ≤ fuel → p.orderedParseStates fuel = .ok order) ∧
    (∀ i, p.Reachable i → order.count i = 1) ∧
      ∀ i j, p.Reachable i → p.Leads i j → order.idxOf i < order.idxOf j

/-- What it takes: no exact or masked case ends the parsing; what is reachable is
reached by exact or masked cases, and from reachable states only; and where a state
leads to another one otherwise, the last way to it comes after every way to the
first. -/
structure Orderable : Prop where
  not_ends : ∀ st ∈ p.parseStates, ∀ c ∈ st.parserSwitch, ¬c.Ends
  closed : ∀ i, p.Reachable i → i ≠ p.initState →
    (∃ q, i ∈ p.keyedStates q) ∧ ∀ q, i ∈ p.keyedStates q → p.Reachable q
  later : ∀ i j, p.Reachable i → p.LeadsOtherwise i j →
    ∀ is, Kahn.Route p.keyedStates p.initState is i →
      ∃ js, Kahn.Route p.keyedStates p.initState js j ∧ Kahn.Sooner is js

/-! ## The maps -/

/-- The name of a state. -/
def stateName (i : ℕ) : String := (p.parseStates[i]?.map (·.name)).getD ""

variable {p}

theorem stateName_eq {i : ℕ} {st : ParseState ℕ} (h : p.parseStates[i]? = some st) :
    p.stateName i = st.name := by
  rw [stateName, h]
  rfl

theorem keyedStates_eq {i : ℕ} {st : ParseState ℕ} (h : p.parseStates[i]? = some st) :
    p.keyedStates i = st.parserSwitch.filterMap ParseSwitchCase.keyedState := by
  rw [keyedStates, h]

/-- The neighbours are the states that cases with keys lead to. -/
theorem neighbours_eq {cases : List (ParseSwitchCase ℕ)} (hends : ∀ c ∈ cases, ¬c.Ends)
    (hlt : ∀ j ∈ cases.filterMap ParseSwitchCase.keyedState, j < p.parseStates.length) :
    p.neighbours cases = .ok ((cases.filterMap ParseSwitchCase.keyedState).map p.stateName) := by
  have hkeyed : ∀ {j : ℕ} {cases : List (ParseSwitchCase ℕ)} {names : List String},
      j < p.parseStates.length → p.neighbours cases = .ok names →
      (do
        let i ← deref (some j)
        let st ← deref p.parseStates[i]?
        let names ← p.neighbours cases
        .ok (st.name :: names)) = Except.ok (ε := Stop) (p.stateName j :: names) := by
    intro j cases names hj hnames
    rw [stateName_eq (List.getElem?_eq_getElem hj)]
    simp only [deref, ok_bind, List.getElem?_eq_getElem hj, hnames]
  induction cases with
  | nil => rfl
  | cons c cases ih =>
    obtain ⟨hc, hrest⟩ := List.forall_mem_cons.mp hends
    cases c with
    | exact key next =>
      cases next with
      | none => exact absurd rfl hc
      | some j =>
        obtain ⟨hj, hlt'⟩ := List.forall_mem_cons.mp hlt
        exact hkeyed hj (ih hrest hlt')
    | withMask key mask next =>
      cases next with
      | none => exact absurd rfl hc
      | some j =>
        obtain ⟨hj, hlt'⟩ := List.forall_mem_cons.mp hlt
        exact hkeyed hj (ih hrest hlt')
    | vset name mask next => exact ih hrest hlt

/-- There are no neighbours where a case with a key ends the parsing. -/
theorem not_ends_of_neighbours {cases : List (ParseSwitchCase ℕ)} {names : List String}
    (h : p.neighbours cases = .ok names) : ∀ c ∈ cases, ¬c.Ends := by
  induction cases generalizing names with
  | nil => simp
  | cons c cases ih =>
    have hkeyed : ∀ {next : Option ℕ}, (do
        let i ← deref next
        let st ← deref p.parseStates[i]?
        let names ← p.neighbours cases
        .ok (st.name :: names)) = Except.ok (ε := Stop) names →
        next ≠ none ∧ ∀ c ∈ cases, ¬c.Ends := by
      intro next h
      obtain ⟨i, hi, h⟩ := bind_eq_ok h
      obtain ⟨st, -, h⟩ := bind_eq_ok h
      obtain ⟨names', hnames, -⟩ := bind_eq_ok h
      have hnext : next = some i := deref_eq_ok hi
      exact ⟨by simp [hnext], ih hnames⟩
    refine List.forall_mem_cons.mpr ?_
    cases c with
    | exact key next => exact hkeyed h
    | withMask key mask next => exact hkeyed h
    | vset name mask next => exact ⟨id, ih h⟩

/-- Different states have different names. -/
theorem AcyclicGraph.stateName_inj (hp : p.AcyclicGraph) {i j : ℕ} (hi : i < p.parseStates.length)
    (hj : j < p.parseStates.length) (h : p.stateName i = p.stateName j) : i = j := by
  rw [stateName_eq (List.getElem?_eq_getElem hi), stateName_eq (List.getElem?_eq_getElem hj)] at h
  have hi' : i < (p.parseStates.map (·.name)).length := by simpa using hi
  have hj' : j < (p.parseStates.map (·.name)).length := by simpa using hj
  have hnames : (p.parseStates.map (·.name))[i] = (p.parseStates.map (·.name))[j] := by
    simpa using h
  exact hp.nodup.getElem_inj_iff.mp hnames

/-- What the maps have of these states. -/
structure Mapped (p : P4Objects) (done : List ℕ) (g : Graph) : Prop where
  degree : ∀ n, g.nameDegree n =
    (done.flatMap fun i => (p.keyedStates i).map p.stateName).count n % 2 ^ 32
  place : ∀ i ∈ done, g.nameParseState.lookup (p.stateName i) = some i
  adjacency : ∀ i ∈ done,
    g.adjacency.lookup (p.stateName i) = some ((p.keyedStates i).map p.stateName)
  of_place : ∀ n ∈ g.nameParseState, ∃ i ∈ done, p.stateName i = n
  of_adjacency : ∀ n ∈ g.adjacency, ∃ i ∈ done, p.stateName i = n

/-- Each name raises its own degree. -/
theorem foldl_degree (names : List String) (d : String → ℕ) (n : String) (hd : d n < 2 ^ 32) :
    names.foldl (fun d s => Function.update d s ((d s + 1) % 2 ^ 32)) d n =
      (d n + names.count n) % 2 ^ 32 := by
  induction names generalizing d with
  | nil => exact (Nat.mod_eq_of_lt hd).symm
  | cons s names ih =>
    by_cases hs : n = s
    · subst hs
      have hlt : Function.update d n ((d n + 1) % 2 ^ 32) n < 2 ^ 32 := by
        rw [Function.update_self]
        exact Nat.mod_lt _ (by norm_num)
      rw [List.foldl_cons, ih _ hlt, Function.update_self, List.count_cons_self]
      omega
    · have hlt : Function.update d s ((d s + 1) % 2 ^ 32) n < 2 ^ 32 := by
        rwa [Function.update_of_ne hs]
      rw [List.foldl_cons, ih _ hlt, Function.update_of_ne hs,
        List.count_cons_of_ne (Ne.symm hs)]

/-- One state more. -/
theorem Mapped.addState (hp : p.AcyclicGraph) {done : List ℕ} {g : Graph} {i : ℕ}
    {st : ParseState ℕ} (hg : Mapped p done g) (hst : p.parseStates[i]? = some st)
    (hends : ∀ c ∈ st.parserSwitch, ¬c.Ends) (hdone : ∀ j ∈ done, j < p.parseStates.length)
    (hi : i ∉ done) : ∃ g', p.addState g i st = .ok g' ∧ Mapped p (done ++ [i]) g' := by
  obtain ⟨hlt, -⟩ := List.getElem?_eq_some_iff.mp hst
  have hnames := neighbours_eq hends fun j hj =>
    hp.next_lt i j (.inl (by rwa [keyedStates_eq hst]))
  rw [← keyedStates_eq hst] at hnames
  -- Names are not repeated, so the new state overwrites no entry of the maps.
  have hfresh : ∀ j ∈ done, p.stateName j ≠ p.stateName i := by
    intro j hj hname
    exact hi (hp.stateName_inj (hdone j hj) hlt hname ▸ hj)
  have hplace : st.name ∉ g.nameParseState := by
    intro hmem
    obtain ⟨j, hj, hname⟩ := hg.of_place _ hmem
    exact hfresh j hj (hname.trans (stateName_eq hst).symm)
  have hadj : st.name ∉ g.adjacency := by
    intro hmem
    obtain ⟨j, hj, hname⟩ := hg.of_adjacency _ hmem
    exact hfresh j hj (hname.trans (stateName_eq hst).symm)
  refine ⟨_, by rw [P4Objects.addState, hnames]; rfl, ?_⟩
  rw [if_neg hplace, if_neg hadj, ← stateName_eq hst]
  refine ⟨fun n => ?_, ?_, ?_, ?_, ?_⟩
  · have hd := hg.degree n
    have hd' : g.nameDegree n < 2 ^ 32 := hd ▸ Nat.mod_lt _ (by norm_num)
    dsimp only
    rw [foldl_degree _ _ _ hd', List.flatMap_append, List.flatMap_singleton, List.count_append, hd,
      Nat.mod_add_mod]
  · intro j hj
    rcases List.mem_append.mp hj with hj | hj
    · rw [AList.lookup_insert_ne (hfresh j hj), hg.place j hj]
    · rw [List.mem_singleton.mp hj, AList.lookup_insert]
  · intro j hj
    rcases List.mem_append.mp hj with hj | hj
    · rw [AList.lookup_insert_ne (hfresh j hj), hg.adjacency j hj]
    · rw [List.mem_singleton.mp hj, AList.lookup_insert]
  · intro n hn
    rcases (AList.mem_insert _).mp hn with rfl | hn
    · exact ⟨i, by simp, rfl⟩
    · obtain ⟨j, hj, hname⟩ := hg.of_place n hn
      exact ⟨j, List.mem_append_left _ hj, hname⟩
  · intro n hn
    rcases (AList.mem_insert _).mp hn with rfl | hn
    · exact ⟨i, by simp, rfl⟩
    · obtain ⟨j, hj, hname⟩ := hg.of_adjacency n hn
      exact ⟨j, List.mem_append_left _ hj, hname⟩

/-- The first loop. -/
theorem Mapped.addStates (hp : p.AcyclicGraph)
    (hends : ∀ st ∈ p.parseStates, ∀ c ∈ st.parserSwitch, ¬c.Ends)
    {left : List (ParseState ℕ × ℕ)} (hleft : ∀ e ∈ left, p.parseStates[e.2]? = some e.1)
    {done : List ℕ} {g : Graph} (hdone : ∀ j ∈ done, j < p.parseStates.length)
    (hnodup : (done ++ left.map (·.2)).Nodup) (hg : Mapped p done g) :
    ∃ g', left.foldlM (fun g st => p.addState g st.2 st.1) g = .ok g' ∧
      Mapped p (done ++ left.map (·.2)) g' := by
  induction left generalizing done g with
  | nil => exact ⟨g, rfl, by simpa using hg⟩
  | cons e left ih =>
    obtain ⟨hst, hleft⟩ := List.forall_mem_cons.mp hleft
    have hi : e.2 ∉ done := fun hmem =>
      (List.nodup_append.mp hnodup).2.2 _ hmem _ List.mem_cons_self rfl
    obtain ⟨g₁, hg₁, hmapped⟩ :=
      hg.addState hp hst (hends e.1 (List.mem_of_getElem? hst)) hdone hi
    have hdone' : ∀ j ∈ done ++ [e.2], j < p.parseStates.length := by
      intro j hj
      rcases List.mem_append.mp hj with hj | hj
      · exact hdone j hj
      · rw [List.mem_singleton.mp hj]
        exact (List.getElem?_eq_some_iff.mp hst).1
    obtain ⟨g', hg', hmapped'⟩ := ih hleft hdone' (by simpa using hnodup) hmapped
    refine ⟨g', ?_, by simpa using hmapped'⟩
    rw [List.foldlM_cons, hg₁]
    exact hg'

/-- **The maps of all states.** -/
theorem exists_graph (hp : p.AcyclicGraph)
    (hends : ∀ st ∈ p.parseStates, ∀ c ∈ st.parserSwitch, ¬c.Ends) :
    ∃ g, p.graph = .ok g ∧ Mapped p (List.range p.parseStates.length) g := by
  have hplaces : p.parseStates.zipIdx.map (·.2) = List.range p.parseStates.length := by
    rw [List.range_eq_range']
    exact List.zipIdx_map_snd 0 p.parseStates
  have hempty : Mapped p [] {} :=
    ⟨fun n => rfl, by simp, by simp, fun n hn => absurd hn (AList.notMem_empty n),
      fun n hn => absurd hn (AList.notMem_empty n)⟩
  have hleft : ∀ e ∈ p.parseStates.zipIdx, p.parseStates[e.2]? = some e.1 := fun e he =>
    List.mem_zipIdx_iff_getElem?.mp he
  have hnodup : (([] : List ℕ) ++ p.parseStates.zipIdx.map (·.2)).Nodup := by
    rw [List.nil_append, hplaces]
    exact List.nodup_range
  obtain ⟨g, hg, hmapped⟩ := Mapped.addStates hp hends hleft (by simp) hnodup hempty
  rw [List.nil_append, hplaces] at hmapped
  exact ⟨g, hg, hmapped⟩

/-! ## The order -/

/-- The second loop takes the nodes of the graph of the names. -/
theorem topologicalOrder_eq (g : Graph) (fuel : ℕ) (search : Search) :
    topologicalOrder g fuel search =
      (Kahn.order (fun name => (g.adjacency.lookup name).getD []) (2 ^ 32) fuel search).elim
        (.error .outOfFuel) .ok := by
  induction fuel generalizing search with
  | zero =>
    obtain ⟨queue, degree⟩ := search
    cases queue <;> rfl
  | succ fuel ih =>
    obtain ⟨queue, degree⟩ := search
    cases queue with
    | nil => rfl
    | cons current queue =>
      have hvisit : visit = Kahn.visit (2 ^ 32) := rfl
      simp only [topologicalOrder, ih, Kahn.order, hvisit]
      cases Kahn.order (fun name => (g.adjacency.lookup name).getD []) (2 ^ 32) fuel
        (((g.adjacency.lookup current).getD []).foldl (Kahn.visit (2 ^ 32)) (queue, degree)) <;> rfl

theorem reachable_of_route {is : List ℕ} {i : ℕ}
    (h : Kahn.Route p.keyedStates p.initState is i) : p.Reachable i := by
  induction h with
  | start => exact .refl
  | step _ hj ih => exact ih.tail (.inl (List.mem_of_getElem? hj))

theorem AcyclicGraph.lt_of_reachable (hp : p.AcyclicGraph) {i : ℕ} (h : p.Reachable i) :
    i < p.parseStates.length := by
  cases h with
  | refl => exact hp.init_lt
  | tail _ hleads => exact hp.next_lt _ _ hleads

/-- The states and the cases with keys are a graph to search. -/
theorem AcyclicGraph.kahn (hp : p.AcyclicGraph) :
    Kahn.Graph p.keyedStates p.initState (List.range p.parseStates.length) where
  nodup := List.nodup_range
  init_mem := List.mem_range.mpr hp.init_lt
  next_mem i _ j hj := List.mem_range.mpr (hp.next_lt i j (.inl hj))
  no_return _ _ hroute hinit :=
    hp.acyclic _ (Relation.TransGen.tail' (reachable_of_route hroute) (.inl hinit))

/-- Names are counted as the states are. -/
theorem AcyclicGraph.count_names (hp : p.AcyclicGraph) {l : List ℕ}
    (hl : ∀ i ∈ l, i < p.parseStates.length) {i : ℕ} (hi : i < p.parseStates.length) :
    (l.map p.stateName).count (p.stateName i) = l.count i := by
  rw [List.count, List.countP_map, List.count]
  refine List.countP_congr fun j hj => ?_
  simp only [Function.comp_apply, beq_iff_eq]
  exact ⟨hp.stateName_inj (hl j hj) hi, congrArg p.stateName⟩

/-- **What is computed** where no exact or masked case ends the parsing. -/
theorem AcyclicGraph.exists_order (hp : p.AcyclicGraph)
    (hends : ∀ st ∈ p.parseStates, ∀ c ∈ st.parserSwitch, ¬c.Ends) :
    ∃ order, Kahn.Ordering p.keyedStates p.initState (List.range p.parseStates.length) order ∧
      ∀ fuel, p.parseStates.length ≤ fuel → p.orderedParseStates fuel = .ok order := by
  -- The states are ordered by their places. The function computes on names, which is the same
  -- order renamed.
  obtain ⟨order, hordering, horder⟩ := Kahn.order_ordering hp.kahn hp.degree_lt
  refine ⟨order, hordering, fun fuel hfuel => ?_⟩
  obtain ⟨g, hg, hmapped⟩ := exists_graph hp hends
  obtain ⟨st, hinit⟩ : ∃ st, p.parseStates[p.initState]? = some st :=
    ⟨_, List.getElem?_eq_getElem hp.init_lt⟩
  have hinj : ∀ a ∈ List.range p.parseStates.length, ∀ b ∈ List.range p.parseStates.length,
      p.stateName a = p.stateName b → a = b := fun a ha b hb =>
    hp.stateName_inj (List.mem_range.mp ha) (List.mem_range.mp hb)
  have hdegree : ∀ i ∈ List.range p.parseStates.length, g.nameDegree (p.stateName i) =
      Kahn.inDegree p.keyedStates (List.range p.parseStates.length) i := by
    intro i hi
    have hflat : ∀ j ∈ (List.range p.parseStates.length).flatMap p.keyedStates,
        j < p.parseStates.length := by
      intro j hj
      obtain ⟨q, -, hq⟩ := List.mem_flatMap.mp hj
      exact hp.next_lt q j (.inl hq)
    have hcount := hp.count_names hflat (List.mem_range.mp hi)
    rw [hmapped.degree, ← List.map_flatMap, hcount]
    exact Nat.mod_eq_of_lt (hp.degree_lt i)
  have hrenamed : Kahn.Renamed p.stateName (List.range p.parseStates.length)
      ([p.initState], Kahn.inDegree p.keyedStates (List.range p.parseStates.length))
      ([st.name], g.nameDegree) := by
    refine ⟨by simpa using hp.init_lt, ?_, hdegree⟩
    rw [List.map_singleton, stateName_eq hinit]
  have hnext : ∀ i ∈ List.range p.parseStates.length,
      (g.adjacency.lookup (p.stateName i)).getD [] = (p.keyedStates i).map p.stateName := by
    intro i hi
    rw [hmapped.adjacency i hi]
    rfl
  have hnames : Kahn.order (fun name => (g.adjacency.lookup name).getD []) (2 ^ 32) fuel
      ([st.name], g.nameDegree) = _ := hrenamed.order hinj hp.kahn.next_mem hnext fuel
  rw [horder fuel (by simpa using hfuel)] at hnames
  -- Each name of the order leads back to its state.
  have hfind : ∀ l ⊆ order,
      (l.map p.stateName).mapM (fun name => deref (g.nameParseState.lookup name)) = .ok l := by
    intro l hl
    induction l with
    | nil => rfl
    | cons i l ih =>
      obtain ⟨hi, hl⟩ := List.cons_subset.mp hl
      obtain ⟨is, hroute, -⟩ := hordering.latest i hi
      have hplace := hmapped.place i (hp.kahn.mem_of_route hroute)
      rw [List.map_cons, List.mapM_cons, hplace, ih hl]
      rfl
  rw [orderedParseStates, hg, ok_bind, hinit, deref, ok_bind, topologicalOrder_eq, hnames]
  exact hfind order (List.Subset.refl order)

/-! ## When the order is right -/

/-- There are no maps where an exact or masked case ends the parsing. -/
theorem not_ends_of_graph {g : Graph} (h : p.graph = .ok g) :
    ∀ st ∈ p.parseStates, ∀ c ∈ st.parserSwitch, ¬c.Ends := by
  have hall : ∀ (left : List (ParseState ℕ × ℕ)) (g₀ : Graph),
      left.foldlM (fun g st => p.addState g st.2 st.1) g₀ = .ok g →
      ∀ e ∈ left, ∀ c ∈ e.1.parserSwitch, ¬c.Ends := by
    intro left
    induction left with
    | nil => simp
    | cons e left ih =>
      intro g₀ h
      obtain ⟨g₁, hg₁, hrest⟩ := bind_eq_ok h
      obtain ⟨names, hnames, -⟩ := bind_eq_ok hg₁
      exact List.forall_mem_cons.mpr ⟨not_ends_of_neighbours hnames, ih g₁ hrest⟩
  intro st hst
  obtain ⟨i, hi⟩ := List.getElem?_of_mem hst
  exact hall _ _ h (st, i) (List.mem_zipIdx_iff_getElem?.mpr hi)

/-- What holds of a state when it does of all that lead to it, holds of all. -/
theorem AcyclicGraph.induction (hp : p.AcyclicGraph) {P : ℕ → Prop}
    (h : ∀ i, i < p.parseStates.length → (∀ q < p.parseStates.length, p.Leads q i → P q) → P i)
    {i : ℕ} (hi : i < p.parseStates.length) : P i := by
  let Below (a b : Fin p.parseStates.length) : Prop := Relation.TransGen p.Leads a b
  have htrans : IsTrans _ Below := ⟨fun _ _ _ => Relation.TransGen.trans⟩
  have hirrefl : Std.Irrefl Below := ⟨fun a => hp.acyclic a⟩
  have hwf := Finite.wellFounded_of_trans_of_irrefl Below
  have hall : ∀ a : Fin p.parseStates.length, P a := fun a =>
    hwf.induction a fun a ih => h a a.isLt fun q hq hleads => ih ⟨q, hq⟩ (.single hleads)
  exact hall ⟨i, hi⟩

/-- A state without transitions of its own is none of the program's. -/
theorem lt_of_mem_keyedStates {i j : ℕ} (h : j ∈ p.keyedStates i) : i < p.parseStates.length := by
  by_contra hi
  rw [keyedStates, List.getElem?_eq_none (Nat.le_of_not_lt hi)] at h
  exact List.not_mem_nil h

section
variable {order : List ℕ}

/-- What is listed is reached by cases with keys, from listed states only. -/
theorem mem_order_iff
    (hordering : Kahn.Ordering p.keyedStates p.initState (List.range p.parseStates.length) order)
    (i : ℕ) : i ∈ order ↔ i = p.initState ∨
      (∃ q, i ∈ p.keyedStates q) ∧ ∀ q, i ∈ p.keyedStates q → q ∈ order := by
  have hrange : ∀ {q}, i ∈ p.keyedStates q → q ∈ List.range p.parseStates.length := fun hq =>
    List.mem_range.mpr (lt_of_mem_keyedStates hq)
  refine (hordering.mem_iff i).trans (or_congr_right ⟨?_, ?_⟩)
  · rintro ⟨⟨q, -, hq⟩, hall⟩
    exact ⟨⟨q, hq⟩, fun q' hq' => hall q' (hrange hq') hq'⟩
  · rintro ⟨⟨q, hq⟩, hall⟩
    exact ⟨⟨q, hrange hq, hq⟩, fun q' _ hq' => hall q' hq'⟩

/-- Only reachable states are listed. -/
theorem reachable_of_mem
    (hordering : Kahn.Ordering p.keyedStates p.initState (List.range p.parseStates.length) order)
    {i : ℕ} (hi : i ∈ order) : p.Reachable i := by
  obtain ⟨is, hroute, -⟩ := hordering.latest i hi
  exact reachable_of_route hroute

/-- All that is reachable is listed, where the graph is orderable. -/
theorem Orderable.mem (hp : p.AcyclicGraph) (h : p.Orderable)
    (hordering : Kahn.Ordering p.keyedStates p.initState (List.range p.parseStates.length) order)
    {i : ℕ} (hi : p.Reachable i) : i ∈ order := by
  have hlt := hp.lt_of_reachable hi
  revert hi
  refine hp.induction (P := fun i => p.Reachable i → i ∈ order) (fun i _ ih hreach => ?_) hlt
  rw [mem_order_iff hordering i]
  by_cases hinit : i = p.initState
  · exact .inl hinit
  · obtain ⟨hpred, hclosed⟩ := h.closed i hreach hinit
    exact .inr ⟨hpred, fun q hq => ih q (lt_of_mem_keyedStates hq) (.inl hq) (hclosed q hq)⟩

/-- A state is listed behind the states that lead to it, where the graph is
orderable. -/
theorem Orderable.idxOf_lt (hp : p.AcyclicGraph) (h : p.Orderable)
    (hordering : Kahn.Ordering p.keyedStates p.initState (List.range p.parseStates.length) order)
    {i j : ℕ} (hi : p.Reachable i) (hleads : p.Leads i j) : order.idxOf i < order.idxOf j := by
  have hio := h.mem hp hordering hi
  have hjo := h.mem hp hordering (hi.tail hleads)
  obtain ⟨is, his⟩ := hordering.latest i hio
  obtain ⟨js, hjs⟩ := hordering.latest j hjo
  -- some way to `j` comes after the last one to `i`
  obtain ⟨ks, hroute, hsooner⟩ : ∃ ks, Kahn.Route p.keyedStates p.initState ks j ∧
      Kahn.Sooner is ks := by
    rcases hleads with hkeyed | hother
    · obtain ⟨k, hk⟩ := List.getElem?_of_mem hkeyed
      exact ⟨_, .step his.1 hk, Kahn.sooner_snoc is k⟩
    · exact h.later i j hi hother is his.1
  have hlast : Kahn.Sooner is js := by
    rcases hjs.2 ks hroute with rfl | hks
    · exact hsooner
    · exact hsooner.trans hks
  exact (hordering.idxOf_lt hio hjo).mpr ⟨js, hjs, is, his, hlast⟩

end

/-- A right order needs an orderable graph. -/
theorem Ordered.orderable (hp : p.AcyclicGraph) (h : p.Ordered) : p.Orderable := by
  obtain ⟨order, ⟨n, hn⟩, hcount, hidx⟩ := h
  have hends : ∀ st ∈ p.parseStates, ∀ c ∈ st.parserSwitch, ¬c.Ends := by
    obtain ⟨g, hg, -⟩ := bind_eq_ok (hn n le_rfl)
    exact not_ends_of_graph hg
  obtain ⟨order', hordering, horder⟩ := hp.exists_order hends
  obtain rfl : order = order' := Except.ok.inj
    ((hn _ (le_max_left n p.parseStates.length)).symm.trans (horder _ (le_max_right _ _)))
  have hmem : ∀ i, p.Reachable i → i ∈ order := fun i hi =>
    List.count_pos_iff.mp (by rw [hcount i hi]; exact Nat.one_pos)
  refine ⟨hends, fun i hi hinit => ?_, fun i j hi hother is his => ?_⟩
  · obtain heq | ⟨hpred, hall⟩ := (mem_order_iff hordering i).mp (hmem i hi)
    · exact absurd heq hinit
    · exact ⟨hpred, fun q hq => reachable_of_mem hordering (hall q hq)⟩
  · have hjo := hmem j (hi.tail (.inr hother))
    obtain ⟨js, hjs, ks, hks, hlt⟩ :=
      (hordering.idxOf_lt (hmem i hi) hjo).mp (hidx i j hi (.inr hother))
    refine ⟨js, hjs.1, ?_⟩
    rcases hks.2 is his with rfl | his
    · exact hlt
    · exact his.trans hlt

/-- An orderable graph is put in a right order. -/
theorem Orderable.ordered (hp : p.AcyclicGraph) (h : p.Orderable) : p.Ordered := by
  obtain ⟨order, hordering, horder⟩ := hp.exists_order h.not_ends
  refine ⟨order, ⟨_, horder⟩, fun i hi => ?_, fun i j hi => h.idxOf_lt hp hordering hi⟩
  exact List.count_eq_one_of_mem hordering.nodup (h.mem hp hordering hi)

/-- **The order is right exactly where the graph is orderable.** -/
theorem ordered_iff_orderable (hp : p.AcyclicGraph) : p.Ordered ↔ p.Orderable :=
  ⟨Ordered.orderable hp, Orderable.ordered hp⟩

/-- A header chain with a way around its middle. -/
def bypassed : P4Objects :=
  { empty with
    parseStates :=
      [{ name := "start", id := 0,
         parserSwitch := [.exact [8] (some 1), .withMask [6] [255] (some 2)],
         defaultNextState := some 2 },
       { name := "tunnel", id := 1, parserSwitch := [.exact [0] (some 2)] },
       { name := "inner", id := 2 }] }

/-- A graph in which all transitions lead to later places has no cycle. -/
theorem acyclic_of_lt (h : ∀ i j, p.Leads i j → i < j) (i : ℕ) : ¬Relation.TransGen p.Leads i i := by
  have hlt : ∀ {a b}, Relation.TransGen p.Leads a b → a < b := by
    intro a b hab
    induction hab with
    | single hab => exact h a _ hab
    | tail _ hbc ih => exact ih.trans (h _ _ hbc)
  exact fun hi => lt_irrefl i (hlt hi)

theorem bypassed_leads {i j : ℕ} (h : bypassed.Leads i j) : i < j ∧ j < 3 := by
  rcases i with _ | _ | _ | i <;>
    simp [Leads, LeadsOtherwise, keyedStates, bypassed, ParseSwitchCase.keyedState] at h <;> omega

theorem bypassed_acyclicGraph : bypassed.AcyclicGraph where
  nodup := by decide
  init_lt := by decide
  next_lt _ _ h := (bypassed_leads h).2
  acyclic := acyclic_of_lt fun _ _ h => (bypassed_leads h).1
  degree_lt j := (List.count_le_length (l := [1, 2, 2])).trans_lt (by norm_num)

/-- The states of the chain are listed as they should. -/
theorem bypassed_ordered : bypassed.Ordered := by
  refine (ordered_iff_orderable bypassed_acyclicGraph).mpr ⟨?_, ?_, ?_⟩
  · simp [bypassed, ParseSwitchCase.Ends]
  · have hall : ∀ i < 3, bypassed.Reachable i := by
      intro i hi
      rcases i with _ | _ | _ | i
      · exact .refl
      · exact .single (.inl (by decide))
      · exact .single (.inl (by decide))
      · omega
    intro i hi hinit
    have hlt := bypassed_acyclicGraph.lt_of_reachable hi
    refine ⟨⟨0, ?_⟩, fun q hq => hall q (lt_of_mem_keyedStates hq)⟩
    rcases i with _ | _ | _ | i
    · exact absurd rfl hinit
    · decide
    · decide
    · exact absurd hlt (by simp [bypassed])
  · intro i j _ hother is his
    obtain ⟨rfl, rfl⟩ : i = 0 ∧ j = 2 := by
      rcases i with _ | _ | _ | i <;> simp [LeadsOtherwise, bypassed] at hother ⊢
      omega
    cases his with
    | start => exact ⟨[1], .step .start rfl, .of_length_lt (by decide)⟩
    | step _ hj =>
      have hback := bypassed_leads (.inl (List.mem_of_getElem? hj))
      omega

/-- A state that two states lead to, of which one is not reachable. -/
def stale : P4Objects :=
  { empty with
    parseStates :=
      [{ name := "start", id := 0, parserSwitch := [.exact [8] (some 1)] },
       { name := "ipv4", id := 1 },
       { name := "unused", id := 2, parserSwitch := [.exact [8] (some 1)] }] }

theorem stale_leads {i j : ℕ} (h : stale.Leads i j) : i ≠ 1 ∧ j = 1 := by
  rcases i with _ | _ | _ | i <;>
    simp [Leads, LeadsOtherwise, keyedStates, stale, ParseSwitchCase.keyedState] at h <;> omega

theorem stale_acyclicGraph : stale.AcyclicGraph where
  nodup := by decide
  init_lt := by decide
  next_lt i j h := by
    obtain ⟨-, rfl⟩ := stale_leads h
    decide
  acyclic i h := by
    obtain ⟨-, rfl⟩ := stale_leads (Relation.TransGen.tail'_iff.mp h).choose_spec.2
    obtain ⟨j, hj, -⟩ := Relation.TransGen.head'_iff.mp h
    exact (stale_leads hj).1 rfl
  degree_lt j := (List.count_le_length (l := [1, 1])).trans_lt (by norm_num)

/-- The reachable state is not listed. -/
theorem stale_not_ordered : stale.AcyclicGraph ∧ ¬stale.Ordered := by
  refine ⟨stale_acyclicGraph, fun h => ?_⟩
  have hreach : stale.Reachable 1 := .single (.inl (by decide))
  have hunused := ((h.orderable stale_acyclicGraph).closed 1 hreach (by decide)).2 2 (by decide)
  rcases Relation.ReflTransGen.cases_tail hunused with heq | ⟨q, -, hq⟩
  · exact absurd heq (by decide)
  · exact absurd (stale_leads hq).2 (by decide)

end P4Objects

end Linker

end P4Bricks
