import Mathlib.Algebra.Group.Nat.Defs
import Mathlib.Data.List.Count
import Mathlib.Data.List.Flatten
import Mathlib.Data.List.Perm.Subperm
import Mathlib.Data.List.Shortlex
import Mathlib.Logic.Function.Basic
/-!
# Taking the nodes of a graph

Kahn's algorithm from a single node. A node is taken from the front of a queue,
each edge out of it lowers the degree of the node it leads to, and a node whose
degree falls to nought joins the queue. Degrees count the edges out of *all*
nodes, so what is taken is closed downwards: a node with an edge into it from a
node that is not taken is not taken either (`Ordering.mem_iff`).

An edge has a place among the edges out of its node, and a way through the graph
is a list of places. A node joins the queue over its last way, where ways are
compared by their length and then place by place, and the nodes are taken in the
order of their last ways (`Ordering.earlier`).
-/

namespace P4Bricks

namespace Kahn

variable {α : Type*} (next : α → List α) (init : α)

/-! ## Ways through the graph -/

/-- The places of the edges along a way from the first node. -/
inductive Route : List ℕ → α → Prop
  | start : Route [] init
  | step {is : List ℕ} {a b : α} {j : ℕ} : Route is a → (next a)[j]? = some b → Route (is ++ [j]) b

/-- The order of ways. -/
abbrev Sooner (is js : List ℕ) : Prop := List.Shortlex (· < ·) is js

/-- No way to the node comes after this one. -/
def Latest (is : List ℕ) (v : α) : Prop :=
  Route next init is v ∧ ∀ js, Route next init js v → js = is ∨ Sooner js is

/-- The last way to the node comes before this one. -/
def Before (v : α) (js : List ℕ) : Prop := ∃ is, Latest next init is v ∧ Sooner is js

/-- The last way to one node comes before the last way to the other. -/
def Earlier (u v : α) : Prop := ∃ js, Latest next init js v ∧ Before next init u js

variable {next init} {is js ks : List ℕ} {i j : ℕ} {a b u v : α}

theorem Sooner.trans (h : Sooner is js) (h' : Sooner js ks) : Sooner is ks := by
  rw [Sooner, List.shortlex_def] at *
  rcases h with h | ⟨hl, h⟩
  · rcases h' with h' | ⟨hl', -⟩
    · exact .inl (h.trans h')
    · exact .inl (hl' ▸ h)
  · rcases h' with h' | ⟨hl', h'⟩
    · exact .inl (hl ▸ h')
    · exact .inr ⟨hl.trans hl', List.lt_trans h h'⟩

theorem Sooner.not_sooner (h : Sooner is js) : ¬Sooner js is :=
  Std.Asymm.asymm (r := List.Shortlex (· < ·)) _ _ h

/-- One edge further on both sides. -/
theorem Sooner.snoc (h : Sooner is js) (i j : ℕ) : Sooner (is ++ [i]) (js ++ [j]) := by
  rw [Sooner, List.shortlex_def] at *
  simp only [List.length_append, List.length_cons, List.length_nil]
  rcases h with h | ⟨hl, h⟩
  · exact .inl (by omega)
  · refine .inr ⟨by omega, ?_⟩
    induction h with
    | nil => cases hl
    | rel h => exact .rel h
    | cons _ ih => exact .cons (ih (Nat.succ_inj.mp hl))

theorem sooner_snoc (is : List ℕ) (j : ℕ) : Sooner is (is ++ [j]) :=
  .of_length_lt (by rw [List.length_append]; exact Nat.lt_succ_self _)

theorem sooner_snoc_of_lt (is : List ℕ) (h : i < j) : Sooner (is ++ [i]) (is ++ [j]) :=
  .append_left ((List.shortlex_singleton_iff i j).mpr h) is

theorem Latest.unique (h : Latest next init is v) (h' : Latest next init js v) : is = js := by
  rcases h.2 js h'.1 with heq | hlt
  · exact heq.symm
  · rcases h'.2 is h.1 with heq | hgt
    · exact heq
    · exact absurd hgt hlt.not_sooner

theorem Latest.sooner_of_earlier (h : Latest next init is u) (h' : Latest next init js v)
    (hearlier : Earlier next init u v) : Sooner is js := by
  obtain ⟨js', hjs, is', his, hlt⟩ := hearlier
  rwa [h.unique his, h'.unique hjs]

theorem Before.trans (h : Before next init v js) (hjs : Sooner js ks) : Before next init v ks := by
  obtain ⟨is, his, hlt⟩ := h
  exact ⟨is, his, hlt.trans hjs⟩

theorem Earlier.not_earlier (h : Earlier next init u v) : ¬Earlier next init v u := by
  intro h'
  obtain ⟨js, hjs, is, his, hlt⟩ := h
  exact hlt.not_sooner (hjs.sooner_of_earlier his h')

/-! ## The search -/

/-- The queue, and the degrees. -/
abbrev Search (α : Type*) := List α × (α → ℕ)

section
variable [DecidableEq α] (next) (M : ℕ)

/-- An edge to this node is followed. Degrees are kept modulo `M`. -/
def visit (search : Search α) (v : α) : Search α :=
  let d := (search.2 v + (M - 1)) % M
  (if d = 0 then search.1 ++ [v] else search.1, Function.update search.2 v d)

/-- The nodes in the order in which they are taken, at most as many as given. -/
def order : ℕ → Search α → Option (List α)
  | _, ([], _) => some []
  | 0, _ => none
  | fuel + 1, (a :: queue, degree) =>
    (order fuel ((next a).foldl (visit M) (queue, degree))).map (a :: ·)

end

/-! ## Renamed nodes -/

/-- One search is another one under other names of the nodes. -/
def Renamed {β : Type*} (f : α → β) (nodes : List α) (search : Search α) (search' : Search β) :
    Prop :=
  search.1 ⊆ nodes ∧ search'.1 = search.1.map f ∧ ∀ a ∈ nodes, search'.2 (f a) = search.2 a

section
variable {β : Type*} [DecidableEq α] [DecidableEq β] {f : α → β} {next' : β → List β} {M : ℕ}
  {nodes l : List α} {search : Search α} {search' : Search β}

theorem Renamed.visit (hinj : ∀ a ∈ nodes, ∀ b ∈ nodes, f a = f b → a = b) (hv : v ∈ nodes)
    (h : Renamed f nodes search search') :
    Renamed f nodes (visit M search v) (visit M search' (f v)) := by
  obtain ⟨hqueue, hqueue', hdegree⟩ := h
  have hd : (search'.2 (f v) + (M - 1)) % M = (search.2 v + (M - 1)) % M := by rw [hdegree v hv]
  refine ⟨?_, ?_, fun a ha => ?_⟩
  · simp only [Kahn.visit]
    split_ifs
    · exact List.append_subset.mpr ⟨hqueue, List.cons_subset.mpr ⟨hv, List.nil_subset _⟩⟩
    · exact hqueue
  · simp only [Kahn.visit, hd, hqueue']
    split_ifs
    · rw [List.map_append, List.map_singleton]
    · rfl
  · by_cases hav : a = v
    · subst hav
      simp only [Kahn.visit, Function.update_self, hd]
    · have hfav : f a ≠ f v := fun hfa => hav (hinj a ha v hv hfa)
      simp only [Kahn.visit, Function.update_of_ne hav, Function.update_of_ne hfav, hdegree a ha]

theorem Renamed.visits (hinj : ∀ a ∈ nodes, ∀ b ∈ nodes, f a = f b → a = b) (hl : l ⊆ nodes)
    (h : Renamed f nodes search search') :
    Renamed f nodes (l.foldl (Kahn.visit M) search) ((l.map f).foldl (Kahn.visit M) search') := by
  induction l generalizing search search' with
  | nil => exact h
  | cons v l ih =>
    obtain ⟨hv, hl⟩ := List.cons_subset.mp hl
    exact ih hl (h.visit hinj hv)

/-- **The order does not depend on the names** of the nodes. -/
theorem Renamed.order (hinj : ∀ a ∈ nodes, ∀ b ∈ nodes, f a = f b → a = b)
    (hnodes : ∀ a ∈ nodes, next a ⊆ nodes) (hnext : ∀ a ∈ nodes, next' (f a) = (next a).map f)
    (fuel : ℕ) (h : Renamed f nodes search search') :
    Kahn.order next' M fuel search' = (Kahn.order next M fuel search).map (List.map f) := by
  induction fuel generalizing search search' with
  | zero =>
    obtain ⟨queue, degree⟩ := search
    obtain ⟨_, degree'⟩ := search'
    obtain ⟨-, rfl, -⟩ := h
    cases queue <;> rfl
  | succ fuel ih =>
    obtain ⟨queue, degree⟩ := search
    obtain ⟨_, degree'⟩ := search'
    obtain ⟨hqueue, rfl, hdegree⟩ := h
    cases queue with
    | nil => rfl
    | cons a queue =>
      obtain ⟨ha, hqueue⟩ := List.cons_subset.mp hqueue
      have hrest : Renamed f nodes (queue, degree) (queue.map f, degree') := ⟨hqueue, rfl, hdegree⟩
      have hrest := ih (hrest.visits (M := M) hinj (hnodes a ha))
      rw [← hnext a ha] at hrest
      rw [List.map_cons, Kahn.order, hrest, Kahn.order, Option.map_map, Option.map_map]
      rfl

end

/-! ## What the search keeps -/

/-- A graph on these nodes, in which no way returns to the first node. -/
structure Graph (next : α → List α) (init : α) (nodes : List α) : Prop where
  nodup : nodes.Nodup
  init_mem : init ∈ nodes
  next_mem : ∀ a ∈ nodes, ∀ b ∈ next a, b ∈ nodes
  no_return : ∀ is a, Route next init is a → init ∉ next a

theorem Graph.mem_of_route {nodes : List α} (hg : Graph next init nodes)
    (h : Route next init is v) : v ∈ nodes := by
  induction h with
  | start => exact hg.init_mem
  | step _ hj ih => exact hg.next_mem _ ih _ (List.mem_of_getElem? hj)

variable [DecidableEq α]

/-- The edges into a node. -/
def inDegree (next : α → List α) (nodes : List α) (v : α) : ℕ := (nodes.flatMap next).count v

/-- Some of the nodes have at most all edges. -/
theorem count_flatMap_le (next : α → List α) {l nodes : List α} (hl : l.Nodup) (hsub : l ⊆ nodes) (v : α) :
    (l.flatMap next).count v ≤ inDegree next nodes v := by
  obtain ⟨l', hperm, hsublist⟩ := List.subperm_of_subset hl hsub
  rw [← (hperm.flatMap_right next).count_eq v]
  exact (hsublist.flatMap next).count_le v

/-- Nodes without an edge to this one do not count. -/
theorem inDegree_filter (next : α → List α) (nodes : List α) (v : α) :
    inDegree next (nodes.filter (v ∈ next ·)) v = inDegree next nodes v := by
  induction nodes with
  | nil => rfl
  | cons a nodes ih =>
    unfold inDegree at ih ⊢
    rw [List.flatMap_cons, List.count_append, ← ih, List.filter_cons]
    by_cases hv : v ∈ next a
    · rw [if_pos (decide_eq_true hv), List.flatMap_cons, List.count_append]
    · rw [if_neg (by simpa using hv), List.count_eq_zero.mpr hv, Nat.zero_add]

/-- What holds between two edges: `edges` were followed, and `listed` has the nodes
that joined the queue. -/
structure Inv (next : α → List α) (init : α) (nodes edges listed : List α) (degree : α → ℕ) :
    Prop where
  degree_add : ∀ v, degree v + edges.count v = inDegree next nodes v
  nodup : listed.Nodup
  mem_iff : ∀ v, v ∈ listed ↔ v = init ∨ v ∈ edges ∧ edges.count v = inDegree next nodes v
  latest : ∀ v ∈ listed, ∃ is, Latest next init is v
  earlier : listed.Pairwise (Earlier next init)

/-- What is computed. -/
structure Ordering (next : α → List α) (init : α) (nodes out : List α) : Prop where
  nodup : out.Nodup
  mem_iff : ∀ v, v ∈ out ↔
    v = init ∨ (∃ a ∈ nodes, v ∈ next a) ∧ ∀ a ∈ nodes, v ∈ next a → a ∈ out
  latest : ∀ v ∈ out, ∃ is, Latest next init is v
  earlier : out.Pairwise (Earlier next init)

section
variable {nodes edges listed out queue seen rest : List α} {degree : α → ℕ} {M : ℕ}

theorem Inv.subset (hg : Graph next init nodes) (h : Inv next init nodes edges listed degree) :
    listed ⊆ nodes := by
  intro v hv
  obtain ⟨is, his, -⟩ := h.latest v hv
  exact hg.mem_of_route his

/-- While the edges out of `a` are followed, no more are counted than there are. -/
theorem Inv.count_le (hg : Graph next init nodes)
    (h : Inv next init nodes edges (out ++ a :: queue) degree) (hnext : next a = seen ++ rest)
    (v : α) : (out.flatMap next ++ seen).count v + rest.count v ≤ inDegree next nodes v := by
  have hsublist : (out ++ [a]).Sublist (out ++ a :: queue) :=
    (List.singleton_sublist.mpr List.mem_cons_self).append_left out
  have hle := count_flatMap_le next (hsublist.nodup h.nodup)
    (List.Subset.trans hsublist.subset (h.subset hg)) v
  simpa [List.flatMap_append, hnext, Nat.add_assoc] using hle

/-- Where all edges into a node were followed, they come from nodes that were
taken, and from the edges of `a` already seen. -/
theorem Inv.of_consumed (hg : Graph next init nodes)
    (h : Inv next init nodes edges (out ++ a :: queue) degree) (hnext : next a = seen ++ rest)
    (hv : (out.flatMap next ++ seen).count v = inDegree next nodes v) (hb : b ∈ nodes)
    (hvb : v ∈ next b) : b ∈ out ∨ b = a ∧ v ∉ rest := by
  by_cases hout : b ∈ out
  · exact .inl hout
  by_cases hba : b = a
  · subst hba
    refine .inr ⟨rfl, fun hrest => ?_⟩
    have hle := h.count_le hg hnext v
    have hpos := List.count_pos_iff.mpr hrest
    omega
  · -- one node more would have more edges than there are
    exfalso
    have hsublist : (out ++ [a]).Sublist (out ++ a :: queue) :=
      (List.singleton_sublist.mpr List.mem_cons_self).append_left out
    have hnodup : (b :: (out ++ [a])).Nodup := by
      refine List.nodup_cons.mpr ⟨?_, hsublist.nodup h.nodup⟩
      simp [hout, hba]
    have hsub : b :: (out ++ [a]) ⊆ nodes :=
      List.cons_subset.mpr ⟨hb, List.Subset.trans hsublist.subset (h.subset hg)⟩
    have hle := count_flatMap_le next hnodup hsub v
    have hpos := List.count_pos_iff.mpr hvb
    simp only [List.flatMap_cons, List.flatMap_append, List.flatMap_nil, List.append_nil, hnext,
      List.count_append] at hle hv
    omega

/-- The way on to the node that the next edge leads to is the last one to it, where
this is the last edge into it. -/
theorem Inv.latest_snoc (hg : Graph next init nodes)
    (h : Inv next init nodes edges (out ++ a :: queue) degree)
    (hnext : next a = seen ++ v :: rest) (ha : Latest next init is a)
    (hv : (out.flatMap next ++ (seen ++ [v])).count v = inDegree next nodes v) :
    Latest next init (is ++ [seen.length]) v := by
  have hplace : (next a)[seen.length]? = some v := by rw [hnext]; simp
  refine ⟨.step ha.1 hplace, fun js hjs => ?_⟩
  cases hjs with
  | start => exact absurd (hnext ▸ by simp) (hg.no_return is a ha.1)
  | @step js b _ k hb hk =>
    have hnext' : next a = (seen ++ [v]) ++ rest := by simp [hnext]
    obtain hout | ⟨rfl, hrest⟩ :=
      h.of_consumed hg hnext' hv (hg.mem_of_route hb) (List.mem_of_getElem? hk)
    · -- `b` was taken before `a`
      refine .inr ?_
      have hearlier := (List.pairwise_append.mp h.earlier).2.2 b hout a List.mem_cons_self
      obtain ⟨ks, hks⟩ := h.latest b (List.mem_append_left _ hout)
      have hlt := (hks.sooner_of_earlier ha hearlier).snoc k seen.length
      rcases hks.2 js hb with rfl | hjs
      · exact hlt
      · exact (hjs.snoc k k).trans hlt
    · -- an edge out of `a`, which comes no later than this one
      have hle : k ≤ seen.length := by
        by_contra hlt
        rw [hnext', List.getElem?_append_right (by simp; omega)] at hk
        exact hrest (List.mem_of_getElem? hk)
      rcases ha.2 js hb with rfl | hjs
      · rcases hle.eq_or_lt with rfl | hlt
        · exact .inl rfl
        · exact .inr (sooner_snoc_of_lt js hlt)
      · exact .inr (hjs.snoc k seen.length)

theorem count_snoc (edges : List α) (u v : α) :
    (edges ++ [v]).count u = edges.count u + if u = v then 1 else 0 := by
  rw [List.count_append, List.count_singleton]
  simp only [beq_iff_eq, eq_comm (a := v)]

/-- An edge into `v` lowers its degree, and `v` joins the queue when that was the last one. -/
theorem Inv.visit_degree (hM : ∀ v, inDegree next nodes v < M)
    (h : Inv next init nodes edges listed degree)
    (hle : (edges ++ [v]).count v ≤ inDegree next nodes v) (queue : List α) :
    (Kahn.visit M (queue, degree) v).1 = (if degree v - 1 = 0 then queue ++ [v] else queue) ∧
      ∀ u, (Kahn.visit M (queue, degree) v).2 u + (edges ++ [v]).count u = inDegree next nodes u := by
  have hadd := h.degree_add v
  have hlt := hM v
  have hcount := count_snoc edges v v
  rw [if_pos rfl] at hcount
  have hmod : (degree v + (M - 1)) % M = degree v - 1 := by
    rw [show degree v + (M - 1) = degree v - 1 + M by omega, Nat.add_mod_right,
      Nat.mod_eq_of_lt (by omega)]
  refine ⟨by simp only [Kahn.visit, hmod], fun u => ?_⟩
  have hu := h.degree_add u
  rw [count_snoc edges u v]
  by_cases huv : u = v
  · subst huv
    simp only [Kahn.visit, Function.update_self, hmod, if_true]
    omega
  · simp only [Kahn.visit, Function.update_of_ne huv, if_neg huv]
    omega

/-- What is said of the other nodes is said of them after the edge. -/
theorem Inv.mem_iff_snoc (h : Inv next init nodes edges listed degree) (huv : u ≠ v) :
    u ∈ listed ↔ u = init ∨ u ∈ edges ++ [v] ∧ (edges ++ [v]).count u = inDegree next nodes u := by
  rw [h.mem_iff u, count_snoc, if_neg huv]
  simp [huv]

/-- After the last edge into it a node joins the queue. -/
theorem Inv.join {degree' : α → ℕ} (h : Inv next init nodes edges listed degree)
    (hdegree : ∀ u, degree' u + (edges ++ [v]).count u = inDegree next nodes u)
    (hall : (edges ++ [v]).count v = inDegree next nodes v) (hv : v ≠ init)
    (hlatest : Latest next init js v) (hbefore : ∀ u ∈ listed, Before next init u js) :
    Inv next init nodes (edges ++ [v]) (listed ++ [v]) degree' := by
  have hold : v ∉ listed := by
    rw [h.mem_iff v]
    rintro (rfl | ⟨-, hv'⟩)
    · exact hv rfl
    · rw [count_snoc, if_pos rfl] at hall
      omega
  refine ⟨hdegree, ?_, fun u => ?_, ?_, ?_⟩
  · exact List.nodup_append.mpr ⟨h.nodup, by simp, fun u hu w hw huw =>
      hold (List.mem_singleton.mp hw ▸ huw ▸ hu)⟩
  · rcases eq_or_ne u v with rfl | huv
    · exact iff_of_true (by simp) (.inr ⟨by simp, hall⟩)
    · rw [← h.mem_iff_snoc huv]
      simp [huv]
  · intro u hu
    rcases List.mem_append.mp hu with hu | hu
    · exact h.latest u hu
    · rw [List.mem_singleton.mp hu]
      exact ⟨_, hlatest⟩
  · refine List.pairwise_append.mpr ⟨h.earlier, List.pairwise_singleton _ _, fun u hu w hw => ?_⟩
    rw [List.mem_singleton.mp hw]
    exact ⟨_, hlatest, hbefore u hu⟩

/-- After another edge into it a node does not. -/
theorem Inv.pass {degree' : α → ℕ} (h : Inv next init nodes edges listed degree)
    (hdegree : ∀ u, degree' u + (edges ++ [v]).count u = inDegree next nodes u)
    (hle : (edges ++ [v]).count v ≤ inDegree next nodes v)
    (hmore : (edges ++ [v]).count v ≠ inDegree next nodes v) (hv : v ≠ init) :
    Inv next init nodes (edges ++ [v]) listed degree' := by
  refine ⟨hdegree, h.nodup, fun u => ?_, h.latest, h.earlier⟩
  rcases eq_or_ne u v with rfl | huv
  · refine ⟨fun hu => ?_, ?_⟩
    · -- all edges into what is listed were followed before
      rcases (h.mem_iff u).mp hu with hu | ⟨-, hu⟩
      · exact .inl hu
      · rw [count_snoc, if_pos rfl] at hle
        omega
    · rintro (hu | ⟨-, hu⟩)
      · exact absurd hu hv
      · exact absurd hu hmore
  · exact h.mem_iff_snoc huv

/-- **One edge.** -/
theorem Inv.visit (hg : Graph next init nodes) (hM : ∀ v, inDegree next nodes v < M)
    (h : Inv next init nodes (out.flatMap next ++ seen) (out ++ a :: queue) degree)
    (hnext : next a = seen ++ v :: rest) (ha : Latest next init is a)
    (hbefore : ∀ u ∈ out ++ a :: queue, Before next init u (is ++ [seen.length])) :
    Inv next init nodes (out.flatMap next ++ (seen ++ [v]))
        (out ++ a :: (visit M (queue, degree) v).1) (visit M (queue, degree) v).2 ∧
      ∀ u ∈ out ++ a :: (visit M (queue, degree) v).1,
        Before next init u (is ++ [(seen ++ [v]).length]) := by
  have hnext' : next a = (seen ++ [v]) ++ rest := by simp [hnext]
  have hle := (Nat.le_add_right _ _).trans (h.count_le hg hnext' v)
  have hlast : ∀ u ∈ out ++ a :: queue, Before next init u (is ++ [(seen ++ [v]).length]) := by
    intro u hu
    exact (hbefore u hu).trans (sooner_snoc_of_lt is (by simp))
  have hv : v ≠ init := by
    rintro rfl
    exact hg.no_return is a ha.1 (by simp [hnext])
  have hlatest := h.latest_snoc hg hnext ha
  rw [← List.append_assoc] at hle hlatest ⊢
  obtain ⟨hqueue, hdegree⟩ := h.visit_degree hM hle queue
  have hadd := h.degree_add v
  have hcount := count_snoc (out.flatMap next ++ seen) v v
  rw [if_pos rfl] at hcount
  rw [hqueue]
  split_ifs with hd
  · have hall : (out.flatMap next ++ seen ++ [v]).count v = inDegree next nodes v := by omega
    have hlist : out ++ a :: (queue ++ [v]) = (out ++ a :: queue) ++ [v] := by simp
    rw [hlist]
    refine ⟨h.join hdegree hall hv (hlatest hall) hbefore, fun u hu => ?_⟩
    rcases List.mem_append.mp hu with hu | hu
    · exact hlast u hu
    · rw [List.mem_singleton.mp hu]
      exact ⟨_, hlatest hall, sooner_snoc_of_lt is (by simp)⟩
  · exact ⟨h.pass hdegree hle (by omega) hv, hlast⟩

/-- What holds between two rounds. -/
structure Between (next : α → List α) (init : α) (nodes out queue : List α) (degree : α → ℕ) :
    Prop where
  inv : Inv next init nodes (out.flatMap next) (out ++ queue) degree
  before : ∀ u ∈ out ++ queue, ∀ a ∈ queue, ∀ is, Latest next init is a →
    Before next init u (is ++ [0])

/-- **The edges out of a node.** -/
theorem Inv.visits (hg : Graph next init nodes) (hM : ∀ v, inDegree next nodes v < M)
    (h : Inv next init nodes (out.flatMap next ++ seen) (out ++ a :: queue) degree)
    (hnext : next a = seen ++ rest) (ha : Latest next init is a)
    (hbefore : ∀ u ∈ out ++ a :: queue, Before next init u (is ++ [seen.length])) :
    ∃ j, Inv next init nodes (out.flatMap next ++ next a)
        (out ++ a :: (rest.foldl (Kahn.visit M) (queue, degree)).1)
        (rest.foldl (Kahn.visit M) (queue, degree)).2 ∧
      ∀ u ∈ out ++ a :: (rest.foldl (Kahn.visit M) (queue, degree)).1,
        Before next init u (is ++ [j]) := by
  induction rest generalizing seen queue degree with
  | nil =>
    rw [hnext, List.append_nil]
    exact ⟨_, h, hbefore⟩
  | cons v rest ih =>
    obtain ⟨h', hbefore'⟩ := h.visit hg hM hnext ha hbefore
    exact ih h' (by simp [hnext]) hbefore'

/-- **A round.** -/
theorem Between.round (hg : Graph next init nodes) (hM : ∀ v, inDegree next nodes v < M)
    (h : Between next init nodes out (a :: queue) degree) :
    Between next init nodes (out ++ [a]) ((next a).foldl (Kahn.visit M) (queue, degree)).1
      ((next a).foldl (Kahn.visit M) (queue, degree)).2 := by
  obtain ⟨is, ha⟩ := h.inv.latest a (by simp)
  have hbefore := fun u hu => h.before u hu a List.mem_cons_self is ha
  have hinv : Inv next init nodes (out.flatMap next ++ []) (out ++ a :: queue) degree := by
    simpa using h.inv
  obtain ⟨j, hinv, hlast⟩ := hinv.visits hg hM (List.nil_append _).symm ha hbefore
  generalize (next a).foldl (Kahn.visit M) (queue, degree) = search at hinv hlast ⊢
  refine ⟨by simpa [List.flatMap_append] using hinv, fun u hu b hb js hjs => ?_⟩
  have hu' : u ∈ out ++ a :: search.1 := by simpa using hu
  have hab := (List.pairwise_cons.mp (List.pairwise_append.mp hinv.earlier).2.1).1 b hb
  exact (hlast u hu').trans ((ha.sooner_of_earlier hjs hab).snoc j 0)

/-- Before the first round. -/
theorem Between.initial (hg : Graph next init nodes) :
    Between next init nodes [] [init] (inDegree next nodes) := by
  have hlatest : Latest next init [] init := by
    refine ⟨.start, fun js hjs => ?_⟩
    cases hjs with
    | start => exact .inl rfl
    | step hb hk => exact absurd (List.mem_of_getElem? hk) (hg.no_return _ _ hb)
  refine ⟨⟨fun v => rfl, by simp, fun v => by simp, ?_,
    List.pairwise_singleton _ _⟩, ?_⟩
  · intro v hv
    obtain rfl := List.mem_singleton.mp hv
    exact ⟨[], hlatest⟩
  · intro u hu a ha is his
    obtain rfl := List.mem_singleton.mp hu
    exact ⟨[], hlatest, .of_length_lt (by simp)⟩

/-- When the queue is empty all is done. -/
theorem Between.ordering (hg : Graph next init nodes)
    (h : Between next init nodes out [] degree) : Ordering next init nodes out := by
  have hinv := h.inv
  rw [List.append_nil] at hinv
  have hsub := hinv.subset hg
  refine ⟨hinv.nodup, fun v => (hinv.mem_iff v).trans (or_congr_right ⟨?_, ?_⟩), hinv.latest,
    hinv.earlier⟩
  · rintro ⟨hv, hcount⟩
    obtain ⟨a, ha, hva⟩ := List.mem_flatMap.mp hv
    refine ⟨⟨a, hsub ha, hva⟩, fun b hb hvb => ?_⟩
    by_contra hout
    have hle := count_flatMap_le next (List.nodup_cons.mpr ⟨hout, hinv.nodup⟩)
      (List.cons_subset.mpr ⟨hb, hsub⟩) v
    have hpos := List.count_pos_iff.mpr hvb
    rw [List.flatMap_cons, List.count_append] at hle
    omega
  · rintro ⟨⟨a, ha, hva⟩, hall⟩
    refine ⟨List.mem_flatMap.mpr ⟨a, hall a ha hva, hva⟩, ?_⟩
    have hfilter : nodes.filter (v ∈ next ·) ⊆ out := by
      intro b hb
      obtain ⟨hbn, hvb⟩ := List.mem_filter.mp hb
      exact hall b hbn (of_decide_eq_true hvb)
    refine le_antisymm (count_flatMap_le next hinv.nodup hsub v) ?_
    rw [← inDegree_filter]
    exact count_flatMap_le next (hg.nodup.filter _) hfilter v

/-- The rounds that are left. -/
theorem Between.order (hg : Graph next init nodes) (hM : ∀ v, inDegree next nodes v < M) (n : ℕ)
    (hn : nodes.length ≤ out.length + n) (h : Between next init nodes out queue degree) :
    ∃ rest, Ordering next init nodes (out ++ rest) ∧ ∀ fuel, nodes.length ≤ out.length + fuel →
      Kahn.order next M fuel (queue, degree) = some rest := by
  induction n generalizing out queue degree with
  | zero =>
    cases queue with
    | nil => exact ⟨[], by simpa using h.ordering hg, fun fuel _ => by cases fuel <;> rfl⟩
    | cons a queue =>
      have hle := (List.subperm_of_subset h.inv.nodup (h.inv.subset hg)).length_le
      simp only [List.length_append, List.length_cons] at hle
      omega
  | succ n ih =>
    cases queue with
    | nil => exact ⟨[], by simpa using h.ordering hg, fun fuel _ => by cases fuel <;> rfl⟩
    | cons a queue =>
      have hle := (List.subperm_of_subset h.inv.nodup (h.inv.subset hg)).length_le
      simp only [List.length_append, List.length_cons] at hle
      obtain ⟨rest, hordering, hrest⟩ :=
        ih (by rw [List.length_append, List.length_singleton]; omega) (h.round hg hM)
      refine ⟨a :: rest, by simpa using hordering, fun fuel hfuel => ?_⟩
      cases fuel with
      | zero => omega
      | succ fuel =>
        have hrest := hrest fuel (by rw [List.length_append, List.length_singleton]; omega)
        rw [Kahn.order, hrest]
        rfl

/-- **What is computed**, in as many rounds as there are nodes. -/
theorem order_ordering (hg : Graph next init nodes) (hM : ∀ v, inDegree next nodes v < M) :
    ∃ out, Ordering next init nodes out ∧ ∀ fuel, nodes.length ≤ fuel →
      order next M fuel ([init], inDegree next nodes) = some out := by
  obtain ⟨out, hout, horder⟩ := (Between.initial hg).order hg hM nodes.length (by simp)
  exact ⟨out, hout, fun fuel hfuel => horder fuel (by simpa using hfuel)⟩

/-- Where one node has its last way before another one, it is taken before it. -/
theorem Ordering.idxOf_lt (h : Ordering next init nodes out) (hu : u ∈ out) (hv : v ∈ out) :
    out.idxOf u < out.idxOf v ↔ Earlier next init u v := by
  have hpair := List.pairwise_iff_getElem.mp h.earlier
  have hu' := List.idxOf_lt_length_iff.mpr hu
  have hv' := List.idxOf_lt_length_iff.mpr hv
  have hof : ∀ {x y}, x ∈ out → y ∈ out → out.idxOf x < out.idxOf y → Earlier next init x y := by
    intro x y hx hy hlt
    have hxy := hpair _ _ (List.idxOf_lt_length_iff.mpr hx) (List.idxOf_lt_length_iff.mpr hy) hlt
    rwa [List.getElem_idxOf, List.getElem_idxOf] at hxy
  refine ⟨hof hu hv, fun hearlier => ?_⟩
  by_contra hnot
  rcases (Nat.le_of_not_lt hnot).eq_or_lt with heq | hlt
  · obtain rfl := (List.idxOf_inj hv).mp heq
    exact hearlier.not_earlier hearlier
  · exact hearlier.not_earlier (hof hv hu hlt)

end

end Kahn

end P4Bricks
