import P4Bricks.Pre.Consistency
import Mathlib.Algebra.Group.Nat.Defs
import Mathlib.Data.List.Forall2
/-!
# Replication to link aggregation groups

`simple_pre_lag.cpp`. A node has a map of link aggregation groups beside its map of ports,
and a packet is copied to one member of each. The member is found by counting the ports of
the group up to a hash modulo the number of members, which is stored apart from them:
`Consistent` keeps the two in step, and the search then ends at a member.
-/

namespace P4Bricks

namespace Pre

/-! ## The model -/

def lagMapSize : ℕ := 256

/-- A `McPre::Set` of link aggregation groups. -/
abbrev LagMap := ℕ → Bool

/-- `LagEntry`. -/
structure LagEntry where
  memberCount : ℕ := 0
  portMap : PortMap := fun _ => false
  deriving Inhabited

/-- `McSimplePreLAG`. The `lag_map` of an L2 entry is given by its handle; that of a handle
without an entry is never read. -/
structure McSimplePreLAG extends McSimplePre where
  lagMaps : ℕ → LagMap
  lagEntries : Dict ℕ LagEntry

namespace McSimplePreLAG

def lagMaxEntries : ℕ := 256

def create : McSimplePreLAG := ⟨.create, fun _ _ => false, .empty⟩

def mcNodeCreate (pre : McSimplePreLAG) (rid : ℕ) (portMap : PortMap) (lagMap : LagMap) :
    Option (McReturnCode × Option ℕ × McSimplePreLAG) := do
  let l2Hdl := firstFree pre.l2Handles
  let (code, l1Hdl, base) ← pre.toMcSimplePre.mcNodeCreate rid portMap
  return (code, l1Hdl, { pre with
    toMcSimplePre := base
    lagMaps := if code = .success then Function.update pre.lagMaps l2Hdl lagMap else pre.lagMaps })

def mcNodeUpdate (pre : McSimplePreLAG) (l1Hdl : ℕ) (portMap : PortMap) (lagMap : LagMap) :
    Option (McReturnCode × McSimplePreLAG) :=
  if l1Hdl ∉ pre.l1Handles then some (.invalidL1Handle, pre)
  else do
    let l1Entry ← pre.l1Entries.at? l1Hdl
    let (code, base) ← pre.toMcSimplePre.mcNodeUpdate l1Hdl portMap
    return (code, { pre with
      toMcSimplePre := base
      lagMaps := Function.update pre.lagMaps l1Entry.l2Hdl lagMap })

/-- The loop that counts the members, in a `uint16_t`. -/
def countMembers (portMap : PortMap) : ℕ :=
  (List.range portMapSize).foldl
    (fun memberCount j => if portMap j then (memberCount + 1) % 2 ^ 16 else memberCount) 0

def mcSetLagMembership (pre : McSimplePreLAG) (lagIndex : ℕ) (portMap : PortMap) :
    McReturnCode × McSimplePreLAG :=
  if lagIndex > lagMaxEntries then (.error, pre)
  else (.success, { pre with
    lagEntries := pre.lagEntries.set lagIndex ⟨countMembers portMap, portMap⟩ })

def resetState (_ : McSimplePreLAG) : McSimplePreLAG := create

/-- The loop that looks for a member: it stops where `port_count2` gets to `port_count1`. -/
def findMember (portMap : PortMap) (portCount1 : ℕ) : ℕ → List ℕ → Option ℕ
  | _, [] => none
  | portCount2, portId :: ports =>
    let portCount2 := if portMap portId then portCount2 + 1 else portCount2
    if portCount1 = portCount2 then some portId else findMember portMap portCount1 portCount2 ports

/-- The copy for one link aggregation group of a node. -/
def replicateLag (pre : McSimplePreLAG) (rid lagIndex : ℕ) : List McOut :=
  match pre.lagEntries.at? lagIndex with
  | none => []
  | some lagEntry =>
    if lagEntry.memberCount = 0 then []
    else
      -- `lag_hash` is a constant for now
      let portCount1 := 0xFF % lagEntry.memberCount + 1
      (findMember lagEntry.portMap portCount1 0 (List.range portMapSize)).toList.map (⟨rid, ·⟩)

/-- The copies for one node of a group. -/
def replicateNode (pre : McSimplePreLAG) (l1Hdl : ℕ) : Option (List McOut) := do
  let l1Entry ← pre.l1Entries.at? l1Hdl
  let l2Entry ← pre.l2Entries.at? l1Entry.l2Hdl
  return ((List.range portMapSize).filter fun port => l2Entry.portMap port).map (⟨l1Entry.rid, ·⟩) ++
    ((List.range lagMapSize).filter fun lag => pre.lagMaps l1Entry.l2Hdl lag).flatMap
      (pre.replicateLag l1Entry.rid)

def replicate (pre : McSimplePreLAG) (mgid : ℕ) : Option (List McOut) :=
  match pre.mgidEntries.at? mgid with
  | none => some []
  | some mgidEntry => (mgidEntry.l1List.mapM pre.replicateNode).map List.flatten

/-! ## Requests -/

inductive Request where
  | mgrpCreate (mgid : ℕ)
  | mgrpDestroy (mgrpHdl : ℕ)
  | nodeCreate (rid : ℕ) (portMap : PortMap) (lagMap : LagMap)
  | nodeAssociate (mgrpHdl l1Hdl : ℕ)
  | nodeDissociate (mgrpHdl l1Hdl : ℕ)
  | nodeDestroy (l1Hdl : ℕ)
  | nodeUpdate (l1Hdl : ℕ) (portMap : PortMap) (lagMap : LagMap)
  | setLagMembership (lagIndex : ℕ) (portMap : PortMap)
  | resetState

/-- The request of the base class that does the same to its part. -/
def Request.base : Request → Option McSimplePre.Request
  | .mgrpCreate mgid => some (.mgrpCreate mgid)
  | .mgrpDestroy mgrpHdl => some (.mgrpDestroy mgrpHdl)
  | .nodeCreate rid portMap _ => some (.nodeCreate rid portMap)
  | .nodeAssociate mgrpHdl l1Hdl => some (.nodeAssociate mgrpHdl l1Hdl)
  | .nodeDissociate mgrpHdl l1Hdl => some (.nodeDissociate mgrpHdl l1Hdl)
  | .nodeDestroy l1Hdl => some (.nodeDestroy l1Hdl)
  | .nodeUpdate l1Hdl portMap _ => some (.nodeUpdate l1Hdl portMap)
  | .setLagMembership .. | .resetState => none

/-- A request that is inherited. -/
def inherited (pre : McSimplePreLAG) (r : McSimplePre.Request) : Option McSimplePreLAG :=
  (pre.toMcSimplePre.step r).map fun res => { pre with toMcSimplePre := res.2.2 }

/-- The state after one request. -/
def step (pre : McSimplePreLAG) : Request → Option McSimplePreLAG
  | .nodeCreate rid portMap lagMap => (pre.mcNodeCreate rid portMap lagMap).map (·.2.2)
  | .nodeUpdate l1Hdl portMap lagMap => (pre.mcNodeUpdate l1Hdl portMap lagMap).map (·.2)
  | .setLagMembership lagIndex portMap => some (pre.mcSetLagMembership lagIndex portMap).2
  | .resetState => some pre.resetState
  | .mgrpCreate mgid => pre.inherited (.mgrpCreate mgid)
  | .mgrpDestroy mgrpHdl => pre.inherited (.mgrpDestroy mgrpHdl)
  | .nodeAssociate mgrpHdl l1Hdl => pre.inherited (.nodeAssociate mgrpHdl l1Hdl)
  | .nodeDissociate mgrpHdl l1Hdl => pre.inherited (.nodeDissociate mgrpHdl l1Hdl)
  | .nodeDestroy l1Hdl => pre.inherited (.nodeDestroy l1Hdl)

/-! ## The members are counted -/

/-- The ports of a map, in order. -/
def members (portMap : PortMap) : List ℕ := (List.range portMapSize).filter portMap

theorem mem_members {portMap : PortMap} {p : ℕ} :
    p ∈ members portMap ↔ p < portMapSize ∧ portMap p = true := by
  rw [members, List.mem_filter, List.mem_range]

/-- The count does not run over: there are fewer ports than a `uint16_t` counts. -/
theorem countMembers_eq (portMap : PortMap) : countMembers portMap = (members portMap).length := by
  have hfold : ∀ (l : List ℕ) (n : ℕ), n + l.length < 2 ^ 16 →
      l.foldl (fun count j => if portMap j then (count + 1) % 2 ^ 16 else count) n =
        n + (l.filter portMap).length := by
    intro l
    induction l with
    | nil => intro n _; rfl
    | cons p l ih =>
      intro n hn
      rw [List.length_cons] at hn
      rw [List.foldl_cons]
      by_cases hp : portMap p = true
      · rw [if_pos hp, Nat.mod_eq_of_lt (by omega), ih _ (by omega),
          List.filter_cons_of_pos hp, List.length_cons]
        omega
      · rw [if_neg hp, ih _ (by omega), List.filter_cons_of_neg hp]
  rw [countMembers, hfold _ _ (by rw [List.length_range]; decide), Nat.zero_add]
  rfl

/-- **The search ends at a port of the map** when there are as many as it counts to. -/
theorem findMember_eq {portMap : PortMap} {count₁ count₂ : ℕ} {ports : List ℕ}
    (hlt : count₂ < count₁)
    (hle : count₁ ≤ count₂ + (ports.filter portMap).length) :
    ∃ p ∈ ports, portMap p = true ∧ findMember portMap count₁ count₂ ports = some p := by
  induction ports generalizing count₂ with
  | nil => simp at hle; omega
  | cons p ports ih =>
    rw [findMember]
    by_cases hp : portMap p = true
    · rw [List.filter_cons_of_pos hp, List.length_cons] at hle
      simp only [hp, if_true]
      split
      · exact ⟨p, List.mem_cons_self, hp, rfl⟩
      · obtain ⟨q, hq, hset, hfind⟩ := ih (by omega) (by omega : count₁ ≤ count₂ + 1 + _)
        exact ⟨q, List.mem_cons_of_mem _ hq, hset, hfind⟩
    · -- a port that is not in the map does not end the search
      rw [List.filter_cons_of_neg hp] at hle
      simp only [if_neg hp]
      rw [if_neg (by omega)]
      obtain ⟨q, hq, hset, hfind⟩ := ih hlt hle
      exact ⟨q, List.mem_cons_of_mem _ hq, hset, hfind⟩

/-- **The count of a group is that of its members**, and the rest of the engine is
consistent. -/
structure Consistent (pre : McSimplePreLAG) : Prop where
  base : pre.toMcSimplePre.Consistent
  counted : ∀ i e, pre.lagEntries.at? i = some e → e.memberCount = (members e.portMap).length

/-- A group that is destroyed has no nodes. -/
def DestroysEmpty (pre : McSimplePreLAG) (r : Request) : Prop :=
  ∀ r', r.base = some r' → pre.toMcSimplePre.DestroysEmpty r'

theorem consistent_create : Consistent create where
  base := McSimplePre.consistent_create
  counted i e he := by cases he

/-- A run of requests, each met by the state it is made in. -/
inductive RunIf (ok : McSimplePreLAG → Request → Prop) :
    McSimplePreLAG → List Request → McSimplePreLAG → Prop where
  | nil (pre) : RunIf ok pre [] pre
  | cons {pre pre₁ pre' r rs} (hok : ok pre r) (hstep : pre.step r = some pre₁)
      (hrun : RunIf ok pre₁ rs pre') : RunIf ok pre (r :: rs) pre'

variable {pre pre' : McSimplePreLAG}

theorem Consistent.setLagMembership (hc : Consistent pre) (lagIndex : ℕ) (portMap : PortMap) :
    Consistent (pre.mcSetLagMembership lagIndex portMap).2 := by
  unfold mcSetLagMembership
  split
  · exact hc
  · refine ⟨hc.base, fun i e he => ?_⟩
    rw [Dict.at?_set] at he
    split at he
    · obtain rfl := Option.some.inj he
      simp only [countMembers_eq]
    · exact hc.counted i e he

theorem Consistent.inherited (hc : Consistent pre) {r : McSimplePre.Request}
    (hempty : pre.toMcSimplePre.DestroysEmpty r) :
    ∃ pre', pre.inherited r = some pre' ∧ Consistent pre' := by
  obtain ⟨code, hdl, base, hstep, hbase⟩ := hc.base.step hempty
  exact ⟨{ pre with toMcSimplePre := base }, by rw [McSimplePreLAG.inherited, hstep]; rfl, hbase, hc.counted⟩

/-- **One request**: it returns, and keeps the engine consistent. -/
theorem Consistent.step (hc : Consistent pre) {r : Request} (hempty : DestroysEmpty pre r) :
    ∃ pre', pre.step r = some pre' ∧ Consistent pre' := by
  cases r with
  | setLagMembership lagIndex portMap => exact ⟨_, rfl, hc.setLagMembership lagIndex portMap⟩
  | resetState => exact ⟨_, rfl, consistent_create⟩
  | nodeCreate rid portMap lagMap =>
    obtain ⟨code, hdl, base, hstep, hbase⟩ := hc.base.nodeCreate rid portMap
    refine ⟨{ pre with
      toMcSimplePre := base
      lagMaps := if code = .success then
        Function.update pre.lagMaps (firstFree pre.l2Handles) lagMap else pre.lagMaps }, ?_, hbase,
      hc.counted⟩
    simp [McSimplePreLAG.step, mcNodeCreate, hstep]
  | nodeUpdate h portMap lagMap =>
    obtain ⟨code, base, hstep, hbase⟩ := hc.base.nodeUpdate h portMap
    simp only [McSimplePreLAG.step, mcNodeUpdate]
    by_cases hh : h ∈ pre.l1Handles
    · obtain ⟨e, he⟩ := hc.base.l1_of_handle hh
      refine ⟨{ pre with
        toMcSimplePre := base
        lagMaps := Function.update pre.lagMaps e.l2Hdl lagMap }, ?_, hbase, hc.counted⟩
      simp [hh, he, hstep]
    · rw [if_pos hh]
      exact ⟨pre, rfl, hc⟩
  | mgrpCreate | mgrpDestroy | nodeAssociate | nodeDissociate | nodeDestroy =>
    exact hc.inherited (hempty _ rfl)

/-- **And so does a run.** -/
theorem RunIf.consistent {rs : List Request} (hrun : RunIf DestroysEmpty pre rs pre')
    (hc : Consistent pre) : Consistent pre' := by
  induction hrun with
  | nil pre => exact hc
  | cons hok hstep _ ih =>
    obtain ⟨pre₁, heq, hc₁⟩ := hc.step hok
    obtain rfl := Option.some.inj (hstep.symm.trans heq)
    exact ih hc₁

/-! ## The copies of a packet -/

/-- What a copy is made for: a port of a node, or a link aggregation group of it. -/
inductive Copy where
  | port (l1Hdl port : ℕ)
  | lag (l1Hdl lagIndex : ℕ)
  deriving DecidableEq

def Copy.node : Copy → ℕ
  | .port h _ | .lag h _ => h

/-- The membership of the group is set, and not empty. -/
def HasMembers (pre : McSimplePreLAG) (i : ℕ) : Prop :=
  ∃ e, pre.lagEntries.at? i = some e ∧ ∃ p, p < portMapSize ∧ e.portMap p = true

/-- The maps of the node ask for the copy. -/
def Asked (pre : McSimplePreLAG) (e : L1Entry) : Copy → Prop
  | .port _ p => p < portMapSize ∧ ∃ e₂, pre.l2Entries.at? e.l2Hdl = some e₂ ∧ e₂.portMap p = true
  | .lag _ i => i < lagMapSize ∧ pre.lagMaps e.l2Hdl i = true ∧ pre.HasMembers i

/-- A node of the group asks for the copy. -/
def Wanted (pre : McSimplePreLAG) (mgid : ℕ) (c : Copy) : Prop :=
  pre.Associated mgid c.node ∧ ∃ e, pre.l1Entries.at? c.node = some e ∧ pre.Asked e c

/-- The output is the copy: it carries the node's `rid`, and goes to the port, or to a member
of the group. -/
def Carries (pre : McSimplePreLAG) (c : Copy) (out : McOut) : Prop :=
  (∃ e, pre.l1Entries.at? c.node = some e ∧ out.rid = e.rid) ∧ out.egressPort < portMapSize ∧
    match c with
    | .port _ p => out.egressPort = p
    | .lag _ i => ∃ e, pre.lagEntries.at? i = some e ∧ e.portMap out.egressPort = true

/-- The outputs are the copies, each one once. -/
structure Copies (pre : McSimplePreLAG) (P : Copy → Prop) (outs : List McOut)
    (copies : List Copy) : Prop where
  nodup : copies.Nodup
  mem_iff : ∀ c, c ∈ copies ↔ P c
  carries : List.Forall₂ pre.Carries copies outs

theorem Copies.append {P Q : Copy → Prop} {outs outs' : List McOut}
    {copies copies' : List Copy} (h : Copies pre P outs copies)
    (h' : Copies pre Q outs' copies') (hdisj : ∀ c, P c → ¬Q c) :
    Copies pre (fun c => P c ∨ Q c) (outs ++ outs') (copies ++ copies') where
  nodup := by
    refine List.nodup_append.mpr ⟨h.nodup, h'.nodup, ?_⟩
    rintro c hc c' hc' rfl
    exact hdisj c ((h.mem_iff c).mp hc) ((h'.mem_iff c).mp hc')
  mem_iff c := by rw [List.mem_append, h.mem_iff, h'.mem_iff]
  carries := List.rel_append h.carries h'.carries

theorem Copies.congr {P Q : Copy → Prop} {outs : List McOut} {copies : List Copy}
    (h : Copies pre P outs copies) (hiff : ∀ c, P c ↔ Q c) : Copies pre Q outs copies :=
  ⟨h.nodup, fun c => (h.mem_iff c).trans (hiff c), h.carries⟩

/-- The copies for the ports of a node. -/
theorem copies_ports {h : ℕ} {e : L1Entry} (he : pre.l1Entries.at? h = some e)
    (portMap : PortMap) :
    Copies pre (fun c => ∃ p, c = .port h p ∧ p < portMapSize ∧ portMap p = true)
      ((members portMap).map (⟨e.rid, ·⟩)) ((members portMap).map (Copy.port h)) where
  nodup := by
    refine (List.nodup_range.filter _).map ?_
    intro p q hpq
    exact (Copy.port.inj hpq).2
  mem_iff c := by
    rw [List.mem_map]
    constructor
    · rintro ⟨p, hp, rfl⟩
      exact ⟨p, rfl, mem_members.mp hp⟩
    · rintro ⟨p, rfl, hp⟩
      exact ⟨p, mem_members.mpr hp, rfl⟩
  carries := by
    rw [List.forall₂_map_left_iff, List.forall₂_map_right_iff, List.forall₂_same]
    intro p hp
    exact ⟨⟨e, he, rfl⟩, (mem_members.mp hp).1, rfl⟩

/-- **One link aggregation group** gets a copy on one of its members, if it has any. -/
theorem copies_lag (hc : Consistent pre) {h : ℕ} {e₁ : L1Entry}
    (he₁ : pre.l1Entries.at? h = some e₁) (i : ℕ) :
    ∃ copies, Copies pre (fun c => c = .lag h i ∧ pre.HasMembers i)
      (pre.replicateLag e₁.rid i) copies := by
  have hnone : ¬pre.HasMembers i → Copies pre (fun c => c = .lag h i ∧ pre.HasMembers i) [] [] :=
    fun hno => ⟨List.nodup_nil, fun c => by simp [hno], .nil⟩
  unfold replicateLag
  cases he : pre.lagEntries.at? i with
  | none =>
    refine ⟨[], hnone ?_⟩
    rintro ⟨e, he', -⟩
    rw [he] at he'
    cases he'
  | some e =>
    have hcount := hc.counted i e he
    by_cases hzero : e.memberCount = 0
    · refine ⟨[], ?_⟩
      simp only [hzero, if_true]
      refine hnone ?_
      rintro ⟨e', he', p, hp⟩
      obtain rfl := Option.some.inj (he.symm.trans he')
      have hmem := mem_members.mpr hp
      rw [List.length_eq_zero_iff.mp (hcount.symm.trans hzero)] at hmem
      cases hmem
    · -- the hash is reduced to a count that the members reach
      have hmod := Nat.mod_lt 0xFF (Nat.pos_of_ne_zero hzero)
      obtain ⟨p, hp, hset, hfind⟩ := @findMember_eq e.portMap _ 0 (List.range portMapSize)
        (Nat.zero_lt_succ (0xFF % e.memberCount)) (by rw [members] at hcount; omega)
      have hp' : p < portMapSize := List.mem_range.mp hp
      simp only [if_neg hzero, hfind]
      refine ⟨[.lag h i], List.nodup_singleton _, fun c => ?_, .cons ⟨⟨e₁, he₁, rfl⟩, hp', e, he, hset⟩ .nil⟩
      have hmembers : pre.HasMembers i := ⟨e, he, p, hp', hset⟩
      simp [hmembers]

/-- The copies for the link aggregation groups of a node. -/
theorem copies_lags (hc : Consistent pre) {h : ℕ} {e₁ : L1Entry}
    (he₁ : pre.l1Entries.at? h = some e₁) {lags : List ℕ} (hnodup : lags.Nodup) :
    ∃ copies, Copies pre (fun c => ∃ i ∈ lags, c = .lag h i ∧ pre.HasMembers i)
      (lags.flatMap (pre.replicateLag e₁.rid)) copies := by
  induction lags with
  | nil => exact ⟨[], List.nodup_nil, fun c => by simp, .nil⟩
  | cons i lags ih =>
    obtain ⟨hi, hrest⟩ := List.nodup_cons.mp hnodup
    obtain ⟨copies, hcopies⟩ := copies_lag hc he₁ i
    obtain ⟨copies', hcopies'⟩ := ih hrest
    rw [List.flatMap_cons]
    refine ⟨_, (hcopies.append hcopies' ?_).congr fun c => by simp⟩
    rintro c ⟨rfl, -⟩ ⟨j, hj, heq, -⟩
    obtain ⟨-, rfl⟩ := Copy.lag.inj heq
    exact hi hj

/-- **The copies for one node.** -/
theorem copies_node (hc : Consistent pre) {h : ℕ} {e : L1Entry}
    (he : pre.l1Entries.at? h = some e) :
    ∃ outs copies, pre.replicateNode h = some outs ∧
      Copies pre (fun c => c.node = h ∧ pre.Asked e c) outs copies := by
  obtain ⟨e₂, he₂, -⟩ := hc.base.l2_of_l1 h e he
  obtain ⟨copies, hcopies⟩ := copies_lags hc he
    (List.nodup_range.filter (fun lag => pre.lagMaps e.l2Hdl lag) : List.Nodup _)
  refine ⟨_, _, by simp [replicateNode, he, he₂, members]; rfl,
    ((copies_ports he e₂.portMap).append hcopies ?_).congr ?_⟩
  · rintro c ⟨p, rfl, -⟩ ⟨i, -, hlag, -⟩
    cases hlag
  · intro c
    constructor
    · rintro (⟨p, rfl, hp, hset⟩ | ⟨i, hi, rfl, hmembers⟩)
      · exact ⟨rfl, hp, e₂, he₂, hset⟩
      · rw [List.mem_filter, List.mem_range] at hi
        exact ⟨rfl, hi.1, hi.2, hmembers⟩
    · cases c with
      | port h' p =>
        rintro ⟨rfl, hp, e₂', he₂', hset⟩
        obtain rfl := Option.some.inj (he₂.symm.trans he₂')
        exact .inl ⟨p, rfl, hp, hset⟩
      | lag h' i =>
        rintro ⟨rfl, hi, hset, hmembers⟩
        exact .inr ⟨i, List.mem_filter.mpr ⟨List.mem_range.mpr hi, hset⟩, rfl, hmembers⟩

/-- The copies for the nodes of a list. -/
theorem copies_nodes (hc : Consistent pre) {nodes : List ℕ} (hnodup : nodes.Nodup)
    (hin : ∀ h ∈ nodes, ∃ e, pre.l1Entries.at? h = some e) :
    ∃ outs copies, nodes.mapM pre.replicateNode = some outs ∧
      Copies pre (fun c => c.node ∈ nodes ∧ ∃ e, pre.l1Entries.at? c.node = some e ∧ pre.Asked e c)
        outs.flatten copies := by
  induction nodes with
  | nil => exact ⟨[], [], rfl, List.nodup_nil, fun c => by simp, .nil⟩
  | cons h nodes ih =>
    obtain ⟨hh, hrest⟩ := List.nodup_cons.mp hnodup
    obtain ⟨e, he⟩ := hin h List.mem_cons_self
    obtain ⟨out, copies, hout, hcopies⟩ := copies_node hc he
    obtain ⟨outs, copies', houts, hcopies'⟩ := ih hrest fun h' hh' => hin h' (List.mem_cons_of_mem _ hh')
    refine ⟨out :: outs, _, by simp [hout, houts], (hcopies.append hcopies' ?_).congr ?_⟩
    · rintro c ⟨rfl, -⟩ ⟨hmem, -⟩
      exact hh hmem
    · intro c
      rw [List.mem_cons]
      constructor
      · rintro (⟨rfl, hasked⟩ | ⟨hmem, hasked⟩)
        · exact ⟨.inl rfl, e, he, hasked⟩
        · exact ⟨.inr hmem, hasked⟩
      · rintro ⟨rfl | hmem, e', he', hasked⟩
        · obtain rfl := Option.some.inj (he.symm.trans he')
          exact .inl ⟨rfl, hasked⟩
        · exact .inr ⟨hmem, e', he', hasked⟩

/-- **A packet is copied once for each port of each node of its group, and once for each link
aggregation group of it that has members**, to one of these. -/
theorem replicate_copies (hc : Consistent pre) (mgid : ℕ) :
    ∃ outs copies, pre.replicate mgid = some outs ∧ Copies pre (pre.Wanted mgid) outs copies := by
  unfold McSimplePreLAG.replicate
  cases hg : pre.mgidEntries.at? mgid with
  | none =>
    refine ⟨[], [], rfl, List.nodup_nil, fun c => ?_, .nil⟩
    -- no node is associated with a group that is not there
    refine iff_of_false List.not_mem_nil ?_
    rintro ⟨hassoc, -⟩
    obtain ⟨ge, hge⟩ := Dict.exists_at? (hc.base.group_of_l1 _ _ hassoc)
    rw [hg] at hge
    cases hge
  | some ge =>
    have hmem := hc.base.mem_iff mgid ge hg
    obtain ⟨outs, copies, houts, hcopies⟩ := copies_nodes hc (hc.base.nodup mgid ge hg) fun h hh => by
      obtain ⟨e, he, -⟩ := (hmem h).mp hh
      exact ⟨e, he⟩
    refine ⟨outs.flatten, copies, by simp [houts], hcopies.congr fun c => ?_⟩
    rw [Wanted, hmem]

/-- A node with one port and one group of three members. -/
def lagRequests : List Request :=
  [.mgrpCreate 1, .nodeCreate 7 (fun port => port = 3) (fun lag => lag = 2), .nodeAssociate 1 0,
    .setLagMembership 2 fun port => port = 5 || port = 8 || port = 255]

theorem lag_copies :
    ∃ pre, RunIf DestroysEmpty create lagRequests pre ∧
      pre.replicate 1 = some [⟨7, 3⟩, ⟨7, 5⟩] ∧
      ∃ outs copies, pre.replicate 1 = some outs ∧ Copies pre (pre.Wanted 1) outs copies := by
  have hrun : RunIf DestroysEmpty create lagRequests _ :=
    .cons (fun _ h => by cases h; trivial) rfl (.cons (fun _ h => by cases h; trivial) rfl
      (.cons (fun _ h => by cases h; trivial) rfl (.cons (fun _ h => by cases h) rfl (.nil _))))
  exact ⟨_, hrun, by decide +kernel, replicate_copies (hrun.consistent consistent_create) 1⟩

end McSimplePreLAG

end Pre

end P4Bricks
