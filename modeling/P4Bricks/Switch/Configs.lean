import Mathlib.Data.List.Forall2
import P4Bricks.Switch.Model
/-!
# Configurations that are rejected

A configuration that `P4Objects::init_objects` rejects should leave the switch as
it was. `Context::load_new_config` makes the new objects the ones of the runtime
before they are initialised, and does not look at the status of the
initialisation; an exception leaves it with the new objects in place. A rejected
configuration thus fails to load, and leaves things as they are, only where every
configuration does: when swaps are disabled, or one is pending.
-/

namespace P4Bricks

namespace Switch

variable {Objects Config Request Packet : Type*} {T : Target Objects Config Request Packet}

/-- `P4Objects::init_objects` rejects the configuration in the context of this id, by
its status or with an exception. -/
def Target.Rejects (T : Target Objects Config Request Packet) (id : ℕ) (cfg : Config) : Prop :=
  (T.initObjects id cfg T.fresh).1 ≠ some 0

/-- The objects a context may have when no configuration that it rejects is ever
used: new ones, or those of a configuration that it accepts, and what requests
and packets make of them. -/
inductive Loaded (T : Target Objects Config Request Packet) (id : ℕ) : Objects → Prop where
  | fresh : Loaded T id T.fresh
  | init {cfg : Config} (h : ¬ T.Rejects id cfg) : Loaded T id (T.initObjects id cfg T.fresh).2
  | enableAllArith {objects : Objects} (h : Loaded T id objects) :
      Loaded T id (T.enableAllArith objects)
  | request {objects : Objects} (r : Request) (h : Loaded T id objects) :
      Loaded T id (T.request r objects)
  | process {objects : Objects} (p : Packet) (h : Loaded T id objects) :
      Loaded T id (T.process p objects)

/-- Both objects of a context are such ones. -/
def Context.Sound (T : Target Objects Config Request Packet) (cxt : Context Objects) : Prop :=
  Loaded T cxt.cxtId cxt.p4objects ∧ ∀ objects ∈ cxt.p4objectsRt, Loaded T cxt.cxtId objects

namespace SwitchWContexts

/-- The configuration is rejected in some context. -/
def Rejects (T : Target Objects Config Request Packet) (s : SwitchWContexts Objects Config)
    (cfg : Config) : Prop :=
  ∃ cxt ∈ s.contexts, T.Rejects cxt.cxtId cfg

/-- Some context has been given a configuration that is not used yet. -/
def SwapPending (s : SwitchWContexts Objects Config) : Prop :=
  ∃ cxt ∈ s.contexts, cxt.p4objectsRt.isSome

/-- The load does not succeed, every context keeps its objects and the switch
reports the configuration it did. -/
def FailsCleanly (T : Target Objects Config Request Packet) (cfg : Config)
    (s : SwitchWContexts Objects Config) : Prop :=
  (s.loadNewConfig T cfg).1 ≠ some .success ∧ (s.loadNewConfig T cfg).2.contexts = s.contexts ∧
    (s.loadNewConfig T cfg).2.currentConfig = s.currentConfig

/-- No context has objects of a configuration that it rejects, and the one that
is reported is rejected by none. -/
structure Sound (T : Target Objects Config Request Packet)
    (s : SwitchWContexts Objects Config) : Prop where
  contexts : ∀ cxt ∈ s.contexts, cxt.Sound T
  reported : s.currentConfig = T.emptyConfig ∨ ¬ s.Rejects T s.currentConfig

/-- A configuration that is rejected is loaded only while swaps are disabled, or
one is pending. -/
def SafeLoads (T : Target Objects Config Request Packet) :
    SwitchWContexts Objects Config → List (Op Config Request Packet) → Prop :=
  Runs.Always (step T) fun s op =>
    ∀ cfg, op = .loadNewConfig cfg → s.Rejects T cfg → s.enableSwap = false ∨ s.SwapPending

/-- Between two calls a first part of the contexts, which is all or nothing unless
a load threw, has objects for the next swap, which is ordered in all these contexts
or in none. -/
def InStep (s : SwitchWContexts Objects Config) : Prop :=
  ∃ given others, ∃ ordered : Bool, s.contexts = given ++ others ∧
    (∀ cxt ∈ given, cxt.p4objectsRt.isSome ∧ cxt.swapOrdered = ordered) ∧
    ∀ cxt ∈ others, cxt.p4objectsRt = none ∧ cxt.swapOrdered = false

end SwitchWContexts

/-! ## The loop over the contexts -/

section Loop

variable {Answer : Type*} [DecidableEq Answer] {success : Answer}
  {f : Context Objects → Answer × Context Objects}

/-- The contexts that answer with success are done with. -/
theorem eachContext_append {given : List (Context Objects)} (others : List (Context Objects))
    (h : ∀ cxt ∈ given, (f cxt).1 = success) :
    eachContext success f (given ++ others) =
      ((eachContext success f others).1,
        (given.map fun cxt => (f cxt).2) ++ (eachContext success f others).2) := by
  induction given with
  | nil => rfl
  | cons cxt given ih =>
    have htail := ih fun cxt' hcxt => h cxt' (List.mem_cons_of_mem _ hcxt)
    rw [List.cons_append, eachContext, if_pos (h cxt List.mem_cons_self), htail]
    rfl

/-- Another answer of the first context ends the loop. -/
theorem eachContext_of_error {cxt : Context Objects} (cxts : List (Context Objects))
    {rc : Answer} (h : f cxt = (rc, cxt)) (hrc : rc ≠ success) :
    eachContext success f (cxt :: cxts) = (rc, cxt :: cxts) := by
  rw [eachContext, h, if_neg hrc]

/-- The loop gets to a first part of the contexts, and stops at the first of them
at the earliest when it fails. -/
theorem eachContext_spec (success : Answer) (f : Context Objects → Answer × Context Objects)
    (cxts : List (Context Objects)) :
    ∃ given others, cxts = given ++ others ∧
      (eachContext success f cxts).2 = (given.map fun cxt => (f cxt).2) ++ others ∧
      ((eachContext success f cxts).1 = success ∨ given ≠ []) := by
  induction cxts with
  | nil => exact ⟨[], [], rfl, rfl, .inl rfl⟩
  | cons cxt cxts ih =>
    rw [eachContext]
    split_ifs with hsuccess
    · obtain ⟨given, others, hcxts, hloop, -⟩ := ih
      exact ⟨cxt :: given, others, by rw [hcxts]; rfl, by rw [hloop]; rfl,
        .inr (List.cons_ne_nil _ _)⟩
    · exact ⟨[cxt], cxts, rfl, rfl, .inr (List.cons_ne_nil _ _)⟩

end Loop

/-! ## One context -/

namespace Context

variable {cxt : Context Objects} {cfg : Config}

@[simp] theorem cxtId_updateRt (f : Objects → Objects) : (cxt.updateRt f).cxtId = cxt.cxtId := by
  unfold updateRt
  split <;> rfl

@[simp] theorem swapOrdered_updateRt (f : Objects → Objects) :
    (cxt.updateRt f).swapOrdered = cxt.swapOrdered := by
  unfold updateRt
  split <;> rfl

@[simp] theorem isSome_updateRt (f : Objects → Objects) :
    (cxt.updateRt f).p4objectsRt.isSome = cxt.p4objectsRt.isSome := by
  unfold updateRt
  split
  · rfl
  · next h => rw [h]; rfl

@[simp] theorem cxtId_initObjects : (cxt.initObjects T cfg).2.cxtId = cxt.cxtId := by
  simp only [initObjects]
  split_ifs <;> simp

@[simp] theorem swapOrdered_initObjects :
    (cxt.initObjects T cfg).2.swapOrdered = cxt.swapOrdered := by
  simp only [initObjects]
  split_ifs <;> simp

@[simp] theorem isSome_initObjects :
    (cxt.initObjects T cfg).2.p4objectsRt.isSome = cxt.p4objectsRt.isSome := by
  simp only [initObjects]
  split_ifs <;> simp

theorem initObjects_status :
    (cxt.initObjects T cfg).1 = (T.initObjects cxt.cxtId cfg cxt.rt).1 := by
  simp only [initObjects]
  split_ifs with hfails
  · rfl
  · exact (not_not.mp hfails).symm
  · exact (not_not.mp hfails).symm

theorem loadNewConfig_snd : (cxt.loadNewConfig T cfg).2 =
    if cxt.p4objectsRt.isSome then cxt
    else (initObjects T cfg { cxt with p4objectsRt := some T.fresh }).2 := by
  unfold loadNewConfig
  split_ifs <;> rfl

@[simp] theorem cxtId_loadNewConfig : (cxt.loadNewConfig T cfg).2.cxtId = cxt.cxtId := by
  rw [loadNewConfig_snd]
  split_ifs <;> simp

@[simp] theorem cxtId_swapConfigs : cxt.swapConfigs.2.cxtId = cxt.cxtId := by
  unfold swapConfigs
  split_ifs <;> rfl

@[simp] theorem cxtId_doSwap : cxt.doSwap.2.cxtId = cxt.cxtId := by
  unfold doSwap
  split_ifs <;> rfl

theorem Sound.updateRt (h : cxt.Sound T) {f : Objects → Objects}
    (hf : ∀ objects, Loaded T cxt.cxtId objects → Loaded T cxt.cxtId (f objects)) :
    (cxt.updateRt f).Sound T := by
  obtain ⟨hactive, hrt⟩ := h
  unfold Context.updateRt
  split
  · next hnone => exact ⟨hf _ hactive, hrt⟩
  · next objects hsome =>
    refine ⟨hactive, ?_⟩
    rintro _ ⟨⟩
    exact hf _ (hrt objects hsome)

/-- **An accepted configuration** leaves good objects. -/
theorem Sound.initObjects (h : cxt.Sound T) (hrt : cxt.rt = T.fresh)
    (hcfg : ¬ T.Rejects cxt.cxtId cfg) : (cxt.initObjects T cfg).2.Sound T := by
  have hsound : (cxt.updateRt fun _ => (T.initObjects cxt.cxtId cfg T.fresh).2).Sound T :=
    h.updateRt fun _ _ => .init hcfg
  simp only [Context.initObjects, hrt]
  split_ifs
  · exact hsound
  · exact ⟨hsound.1.enableAllArith, hsound.2⟩
  · exact hsound

theorem Sound.loadNewConfig (h : cxt.Sound T) (hcfg : ¬ T.Rejects cxt.cxtId cfg) :
    (cxt.loadNewConfig T cfg).2.Sound T := by
  rw [loadNewConfig_snd]
  split_ifs with hpending
  · exact h
  · have hnew : ({ cxt with p4objectsRt := some T.fresh } : Context Objects).Sound T := by
      refine ⟨h.1, ?_⟩
      rintro _ ⟨⟩
      exact .fresh
    exact hnew.initObjects rfl hcfg

theorem Sound.swapConfigs (h : cxt.Sound T) : cxt.swapConfigs.2.Sound T := by
  unfold Context.swapConfigs
  split_ifs
  · exact h
  · exact h

/-- What a swap makes the active objects were the pending ones. -/
theorem Sound.doSwap (h : cxt.Sound T) : cxt.doSwap.2.Sound T := by
  unfold Context.doSwap
  split_ifs
  · refine ⟨?_, fun objects hobjects => absurd hobjects (by simp)⟩
    rw [rt]
    rcases hrt : cxt.p4objectsRt with - | objects
    · exact h.1
    · exact h.2 objects hrt
  · exact h

/-- What a call makes of one context, when these configurations are not turned down. -/
inductive Moves (T : Target Objects Config Request Packet) (takesUp : Config → Prop)
    (cxt : Context Objects) : Context Objects → Prop
  | stay : Moves T takesUp cxt cxt
  | load {cfg : Config} (h : takesUp cfg) : Moves T takesUp cxt (cxt.loadNewConfig T cfg).2
  | order : Moves T takesUp cxt cxt.swapConfigs.2
  | swap : Moves T takesUp cxt cxt.doSwap.2
  | orderSwap : Moves T takesUp cxt cxt.swapConfigs.2.doSwap.2
  | request (r : Request) : Moves T takesUp cxt (cxt.updateRt (T.request r))
  | packet (p : Packet) :
      Moves T takesUp cxt { cxt with p4objects := T.process p cxt.p4objects }

variable {takesUp : Config → Prop} {cxt' : Context Objects}

theorem Moves.cxtId (h : Moves T takesUp cxt cxt') : cxt'.cxtId = cxt.cxtId := by
  cases h <;> simp

/-- **A move with an accepted configuration**, or none, leaves good objects. -/
theorem Moves.sound (h : Moves T takesUp cxt cxt') (hs : cxt.Sound T)
    (haccepted : ∀ cfg, takesUp cfg → ¬ T.Rejects cxt.cxtId cfg) : cxt'.Sound T := by
  cases h with
  | stay => exact hs
  | load hcfg => exact hs.loadNewConfig (haccepted _ hcfg)
  | order => exact hs.swapConfigs
  | swap => exact hs.doSwap
  | orderSwap => exact hs.swapConfigs.doSwap
  | request r => exact hs.updateRt fun _ => .request r
  | packet p => exact ⟨hs.1.process p, hs.2⟩

end Context

namespace SwitchWContexts

variable {s s' s₀ : SwitchWContexts Objects Config} {cfg : Config}
  {op : Op Config Request Packet} {ops : List (Op Config Request Packet)}

/-! ## The calls of the switch -/

/-- The load of a configuration that is not turned down. -/
def TakesUp (s : SwitchWContexts Objects Config) (op : Op Config Request Packet)
    (cfg : Config) : Prop :=
  op = .loadNewConfig cfg ∧ s.enableSwap = true ∧ ¬ s.SwapPending

theorem InStep.quiet (hin : s.InStep) (hp : ¬ s.SwapPending) {cxt : Context Objects}
    (hcxt : cxt ∈ s.contexts) : cxt.p4objectsRt = none ∧ cxt.swapOrdered = false := by
  obtain ⟨given, others, ordered, hs, hgiven, hothers⟩ := hin
  rcases List.mem_append.mp (hs ▸ hcxt) with hmem | hmem
  · exact absurd ⟨cxt, hcxt, (hgiven cxt hmem).1⟩ hp
  · exact hothers cxt hmem

theorem loadNewConfig_of_disabled (h : s.enableSwap = false) :
    s.loadNewConfig T cfg = (some .configSwapDisabled, s) := by
  rw [loadNewConfig, h]
  rfl

/-- A load while a swap is pending is turned down by the first context. -/
theorem loadNewConfig_of_pending (hin : s.InStep) (he : s.enableSwap = true)
    (hp : s.SwapPending) : s.loadNewConfig T cfg = (some .ongoingSwap, s) := by
  obtain ⟨given, others, ordered, hs, hgiven, hothers⟩ := hin
  obtain ⟨cxt, hcxt, hsome⟩ := hp
  cases given with
  | nil =>
    have hnone := (hothers cxt (by rwa [hs] at hcxt)).1
    rw [hnone] at hsome
    cases hsome
  | cons cxt₀ given =>
    have hfirst : cxt₀.loadNewConfig T cfg = (some .ongoingSwap, cxt₀) := by
      rw [Context.loadNewConfig, if_pos (hgiven cxt₀ List.mem_cons_self).1]
    have hfailed : (some .ongoingSwap : Option ErrorCode) ≠ some .success := by decide
    have hloop := eachContext_of_error (given ++ others) hfirst hfailed
    rw [loadNewConfig, if_pos he, hs, List.cons_append, hloop]
    dsimp only
    rw [← List.cons_append, ← hs]

variable (T s cfg) in
/-- **Any other load** gives new objects to a first part of the contexts, whatever
becomes of the initialisations, and succeeds unless one of them throws. -/
theorem loadNewConfig_of_enabled (he : s.enableSwap = true) :
    ∃ given others, s.contexts = given ++ others ∧
      (s.loadNewConfig T cfg).2.contexts =
        (given.map fun cxt => (cxt.loadNewConfig T cfg).2) ++ others ∧
      ((s.loadNewConfig T cfg).1 = some .success ∧ (s.loadNewConfig T cfg).2.currentConfig = cfg ∨
        given ≠ [] ∧ (s.loadNewConfig T cfg).2.currentConfig = s.currentConfig) := by
  obtain ⟨given, others, hcxts, hloop, hends⟩ :=
    eachContext_spec (some .success) (Context.loadNewConfig T cfg) s.contexts
  refine ⟨given, others, hcxts, ?_⟩
  rw [loadNewConfig, if_pos he]
  generalize eachContext (some .success) (Context.loadNewConfig T cfg) s.contexts = r at hloop hends
  obtain ⟨rc, cxts⟩ := r
  split
  · next cxts' heq =>
    obtain ⟨rfl, rfl⟩ := Prod.mk.inj heq
    exact ⟨hloop, .inl ⟨rfl, rfl⟩⟩
  · next rc' cxts' hne heq =>
    obtain ⟨rfl, rfl⟩ := Prod.mk.inj heq
    exact ⟨hloop, .inr ⟨hends.resolve_left hne, rfl⟩⟩

/-- When a load that is not turned down does not succeed, at least the first context
has been given other objects. -/
theorem not_failsCleanly_of_enabled (he : s.enableSwap = true) (hp : ¬ s.SwapPending) :
    ¬ s.FailsCleanly T cfg := by
  rintro ⟨hne, hsame, -⟩
  obtain ⟨given, others, hcxts, hs, ⟨hsuccess, -⟩ | ⟨hgiven, -⟩⟩ :=
    loadNewConfig_of_enabled T s cfg he
  · exact hne hsuccess
  · obtain ⟨cxt, given, rfl⟩ := List.exists_cons_of_ne_nil hgiven
    rw [hs, hcxts, List.map_cons, List.cons_append, List.cons_append] at hsame
    have hload := (List.cons.inj hsame).1
    have hmem : cxt ∈ s.contexts := hcxts ▸ List.mem_cons_self
    have hnone : ¬ cxt.p4objectsRt.isSome := fun hsome => hp ⟨cxt, hmem, hsome⟩
    have hsome : (cxt.loadNewConfig T cfg).2.p4objectsRt.isSome := by
      rw [Context.loadNewConfig_snd, if_neg hnone, Context.isSome_initObjects]
      rfl
    exact hnone (hload ▸ hsome)

variable (T cfg) in
/-- What a load does, whatever the configuration. -/
theorem loadNewConfig_cases (hin : s.InStep) :
    (s.enableSwap = false ∨ s.SwapPending) ∧ (s.loadNewConfig T cfg).1 ≠ some .success ∧
        (s.loadNewConfig T cfg).2 = s ∨
      s.enableSwap = true ∧ ¬ s.SwapPending := by
  rcases Bool.eq_false_or_eq_true s.enableSwap with he | he
  · by_cases hp : s.SwapPending
    · rw [loadNewConfig_of_pending hin he hp]
      exact .inl ⟨.inr hp, by simp, rfl⟩
    · exact .inr ⟨he, hp⟩
  · rw [loadNewConfig_of_disabled he]
    exact .inl ⟨.inl he, by simp, rfl⟩

/-- A swap is made in the contexts where it is ordered. -/
theorem doSwap_cases (s : SwitchWContexts Objects Config) :
    s.doSwap = (1, s) ∨
      s.swapRequested ∧
        s.doSwap = (0, { s with contexts := s.contexts.map fun cxt => cxt.doSwap.2 }) := by
  rw [doSwap]
  split_ifs with hboth
  · exact .inr ⟨(Bool.and_eq_true_iff.mp hboth).2, rfl⟩
  · exact .inl rfl

/-- `swap_configs` changes nothing, orders the swap in the contexts that have new
objects, when others have none, or else makes the new objects active in all
contexts. -/
theorem swapConfigs_cases (hin : s.InStep) {rc : ErrorCode}
    (h : s.swapConfigs = some (rc, s')) :
    s' = s ∨
      (∃ given others, s.contexts = given ++ others ∧ (∀ cxt ∈ given, cxt.p4objectsRt.isSome) ∧
        (∀ cxt ∈ others, cxt.p4objectsRt = none ∧ cxt.swapOrdered = false) ∧
        s' = { s with contexts := (given.map fun cxt => cxt.swapConfigs.2) ++ others }) ∨
      (∀ cxt ∈ s.contexts, cxt.p4objectsRt.isSome) ∧
        s' = { s with
          contexts := s.contexts.map fun cxt => cxt.swapConfigs.2.doSwap.2
          configLoaded := true } := by
  obtain ⟨given, others, ordered, hs, hgiven, hothers⟩ := hin
  rcases Bool.eq_false_or_eq_true s.enableSwap with he | he
  · have hsuccess : ∀ cxt ∈ given, cxt.swapConfigs = (.success, { cxt with swapOrdered := true }) := by
      intro cxt hcxt
      rw [Context.swapConfigs, if_neg (by rw [← Option.not_isSome, (hgiven cxt hcxt).1]; simp)]
    have hreturn : ∀ cxt ∈ given, cxt.swapConfigs.1 = ErrorCode.success := fun cxt hcxt =>
      congrArg Prod.fst (hsuccess cxt hcxt)
    have hloop := eachContext_append others hreturn
    rw [← hs] at hloop
    rw [swapConfigs, if_pos he, hloop] at h
    cases others with
    | nil =>
      rw [List.append_nil] at hs
      rcases doSwap_cases { s with
        contexts := s.contexts.map fun cxt => cxt.swapConfigs.2, configLoaded := true } with
        hswap | ⟨-, hswap⟩
      · -- Without contexts the assertion fails.
        simp [eachContext, ← hs, hswap] at h
      · simp only [eachContext, ← hs, List.append_nil, hswap, ↓reduceIte, Option.some.injEq,
          Prod.mk.injEq] at h
        refine .inr (.inr ⟨fun cxt hcxt => (hgiven cxt (hs ▸ hcxt)).1, ?_⟩)
        rw [← h.2, List.map_map]
        rfl
    | cons cxt₀ others =>
      have hfirst : cxt₀.swapConfigs = (.noOngoingSwap, cxt₀) := by
        rw [Context.swapConfigs, if_pos (by rw [(hothers cxt₀ List.mem_cons_self).1]; rfl)]
      rw [eachContext_of_error others hfirst (by decide)] at h
      obtain ⟨-, rfl⟩ := Prod.mk.inj (Option.some.inj h)
      exact .inr (.inl ⟨given, _, hs, fun cxt hcxt => (hgiven cxt hcxt).1, hothers, rfl⟩)
  · rw [swapConfigs, he] at h
    obtain ⟨-, rfl⟩ := Prod.mk.inj (Option.some.inj h)
    exact .inl rfl

/-! ## What every call preserves -/

theorem InStep.loadNewConfig (hin : s.InStep) : (s.loadNewConfig T cfg).2.InStep := by
  rcases loadNewConfig_cases T cfg hin with ⟨-, -, hs⟩ | ⟨he, hp⟩
  · rwa [hs]
  · obtain ⟨given, others, hcxts, hs, -⟩ := loadNewConfig_of_enabled T s cfg he
    have hquiet : ∀ cxt ∈ given ++ others, cxt.p4objectsRt = none ∧ cxt.swapOrdered = false :=
      fun cxt hcxt => hin.quiet hp (hcxts ▸ hcxt)
    refine ⟨_, others, false, hs, fun cxt' hcxt' => ?_, fun cxt hcxt =>
      hquiet cxt (List.mem_append_right _ hcxt)⟩
    obtain ⟨cxt, hcxt, rfl⟩ := List.mem_map.mp hcxt'
    obtain ⟨hnone, hordered⟩ := hquiet cxt (List.mem_append_left _ hcxt)
    simp [Context.loadNewConfig_snd, hnone, hordered]

/-- When all contexts have swapped, or had nothing to swap. -/
theorem InStep.of_quiet (h : ∀ cxt ∈ s.contexts, cxt.p4objectsRt = none ∧ cxt.swapOrdered = false) :
    s.InStep :=
  ⟨[], s.contexts, false, rfl, by simp, h⟩

theorem InStep.doSwap (hin : s.InStep) : s.doSwap.2.InStep := by
  rcases doSwap_cases s with hs | ⟨hrequested, hs⟩
  · rwa [hs]
  · obtain ⟨given, others, ordered, hcxts, hgiven, hothers⟩ := hin
    rw [hs]
    refine .of_quiet fun cxt' hcxt' => ?_
    obtain ⟨cxt, hcxt, rfl⟩ := List.mem_map.mp hcxt'
    -- A context where the swap is ordered is among the first, and these agree.
    obtain ⟨cxt₁, hcxt₁, hordered₁⟩ := List.any_eq_true.mp hrequested
    have hordered : ordered = true := by
      rcases List.mem_append.mp (hcxts ▸ hcxt₁) with hmem | hmem
      · rw [← (hgiven cxt₁ hmem).2, hordered₁]
      · rw [(hothers cxt₁ hmem).2] at hordered₁
        cases hordered₁
    rcases List.mem_append.mp (hcxts ▸ hcxt) with hmem | hmem
    · simp [Context.doSwap, (hgiven cxt hmem).2, hordered]
    · simp [Context.doSwap, hothers cxt hmem]

theorem InStep.swapConfigs (hin : s.InStep) {rc : ErrorCode} (h : s.swapConfigs = some (rc, s')) :
    s'.InStep := by
  rcases swapConfigs_cases hin h with rfl | ⟨given, others, -, hgiven, hothers, rfl⟩ | ⟨hall, rfl⟩
  · exact hin
  · refine ⟨_, others, true, rfl, fun cxt' hcxt' => ?_, hothers⟩
    obtain ⟨cxt, hcxt, rfl⟩ := List.mem_map.mp hcxt'
    obtain ⟨objects, hsome⟩ := Option.isSome_iff_exists.mp (hgiven cxt hcxt)
    simp [Context.swapConfigs, hsome]
  · refine .of_quiet fun cxt' hcxt' => ?_
    obtain ⟨cxt, hcxt, rfl⟩ := List.mem_map.mp hcxt'
    obtain ⟨objects, hsome⟩ := Option.isSome_iff_exists.mp (hall cxt hcxt)
    simp [Context.swapConfigs, Context.doSwap, hsome]

/-- A request or a packet leaves to every context what is pending there. -/
theorem InStep.onContext (hin : s.InStep) {id : ℕ} {f : Context Objects → Context Objects}
    (hf : ∀ cxt, (f cxt).p4objectsRt.isSome = cxt.p4objectsRt.isSome ∧
      (f cxt).swapOrdered = cxt.swapOrdered) : (s.onContext id f).InStep := by
  obtain ⟨given, others, ordered, hs, hgiven, hothers⟩ := hin
  have hkept : ∀ cxt, (if cxt.cxtId = id then f cxt else cxt).p4objectsRt.isSome =
      cxt.p4objectsRt.isSome ∧
      (if cxt.cxtId = id then f cxt else cxt).swapOrdered = cxt.swapOrdered := by
    intro cxt
    split_ifs
    · exact hf cxt
    · exact ⟨rfl, rfl⟩
  refine ⟨given.map _, others.map _, ordered, by rw [SwitchWContexts.onContext, hs, List.map_append],
    fun cxt' hcxt' => ?_, fun cxt' hcxt' => ?_⟩
  · obtain ⟨cxt, hcxt, rfl⟩ := List.mem_map.mp hcxt'
    obtain ⟨hsome, hordered⟩ := hkept cxt
    exact ⟨hsome.trans (hgiven cxt hcxt).1, hordered.trans (hgiven cxt hcxt).2⟩
  · obtain ⟨cxt, hcxt, rfl⟩ := List.mem_map.mp hcxt'
    obtain ⟨hsome, hordered⟩ := hkept cxt
    rw [(hothers cxt hcxt).1] at hsome
    exact ⟨Option.not_isSome_iff_eq_none.mp (by simp [hsome]), hordered.trans (hothers cxt hcxt).2⟩

theorem InStep.step (hin : s.InStep) (h : s.step T op = some s') : s'.InStep := by
  cases op with
  | loadNewConfig cfg =>
    obtain rfl := Option.some.inj h
    exact hin.loadNewConfig
  | swapConfigs =>
    obtain ⟨⟨rc, s''⟩, hswap, rfl⟩ := Option.map_eq_some_iff.mp h
    exact hin.swapConfigs hswap
  | doSwap =>
    obtain rfl := Option.some.inj h
    exact hin.doSwap
  | request id r =>
    obtain rfl := Option.some.inj h
    exact hin.onContext fun cxt => ⟨Context.isSome_updateRt _, Context.swapOrdered_updateRt _⟩
  | packet id p =>
    obtain rfl := Option.some.inj h
    exact hin.onContext fun cxt => ⟨rfl, rfl⟩
  | enableConfigSwap =>
    obtain rfl := Option.some.inj h
    exact hin
  | disableConfigSwap =>
    obtain rfl := Option.some.inj h
    exact hin

/-- **One call** moves each context, and changes the reported configuration only to
one that it takes up. -/
theorem step_moves (hin : s.InStep) (h : s.step T op = some s') :
    List.Forall₂ (Context.Moves T (s.TakesUp op)) s.contexts s'.contexts ∧
      (s'.currentConfig = s.currentConfig ∨ s.TakesUp op s'.currentConfig) := by
  -- A step leaves all contexts alone, does one thing to all of them, or does it to the given ones
  -- and leaves the others alone.
  have hstay : ∀ cxts, List.Forall₂ (Context.Moves T (s.TakesUp op)) cxts cxts := fun cxts =>
    List.forall₂_same.mpr fun cxt _ => .stay
  have hmap : ∀ (f : Context Objects → Context Objects) cxts,
      (∀ cxt, Context.Moves T (s.TakesUp op) cxt (f cxt)) →
      List.Forall₂ (Context.Moves T (s.TakesUp op)) cxts (cxts.map f) := fun f cxts hf =>
    List.forall₂_map_right_iff.mpr (List.forall₂_same.mpr fun cxt _ => hf cxt)
  cases op with
  | loadNewConfig cfg =>
    obtain rfl := Option.some.inj h
    rcases loadNewConfig_cases T cfg hin with ⟨-, -, hs⟩ | ⟨he, hp⟩
    · rw [hs]
      exact ⟨hstay _, .inl rfl⟩
    · obtain ⟨given, others, hcxts, hs, hcfg⟩ := loadNewConfig_of_enabled T s cfg he
      refine ⟨?_, hcfg.symm.imp And.right fun hcfg => ⟨by rw [hcfg.2], he, hp⟩⟩
      rw [hs, hcxts]
      exact List.rel_append (hmap _ given fun cxt => .load ⟨rfl, he, hp⟩) (hstay others)
  | swapConfigs =>
    obtain ⟨⟨rc, s''⟩, hswap, rfl⟩ := Option.map_eq_some_iff.mp h
    rcases swapConfigs_cases hin hswap with rfl | ⟨given, others, hs, -, -, rfl⟩ | ⟨-, rfl⟩
    · exact ⟨hstay _, .inl rfl⟩
    · rw [hs]
      exact ⟨List.rel_append (hmap _ given fun cxt => .order) (hstay others), .inl rfl⟩
    · exact ⟨hmap _ s.contexts fun cxt => .orderSwap, .inl rfl⟩
  | doSwap =>
    obtain rfl := Option.some.inj h
    rcases doSwap_cases s with hs | ⟨-, hs⟩
    · rw [hs]
      exact ⟨hstay _, .inl rfl⟩
    · rw [hs]
      exact ⟨hmap _ s.contexts fun cxt => .swap, .inl rfl⟩
  | request id r =>
    obtain rfl := Option.some.inj h
    refine ⟨hmap _ s.contexts fun cxt => ?_, .inl rfl⟩
    split_ifs
    · exact .request r
    · exact .stay
  | packet id p =>
    obtain rfl := Option.some.inj h
    refine ⟨hmap _ s.contexts fun cxt => ?_, .inl rfl⟩
    split_ifs
    · exact .packet p
    · exact .stay
  | enableConfigSwap =>
    obtain rfl := Option.some.inj h
    exact ⟨hstay _, .inl rfl⟩
  | disableConfigSwap =>
    obtain rfl := Option.some.inj h
    exact ⟨hstay _, .inl rfl⟩

/-- The contexts stay the ones they are. -/
theorem step_ids (hin : s.InStep) (h : s.step T op = some s') :
    s'.contexts.map Context.cxtId = s.contexts.map Context.cxtId := by
  refine Eq.symm (List.forall₂_eq_eq_eq ▸ List.forall₂_map_left_iff.mpr
    (List.forall₂_map_right_iff.mpr ?_))
  exact (step_moves hin h).1.imp fun cxt cxt' hm => hm.cxtId.symm

theorem rejects_congr (h : s'.contexts.map Context.cxtId = s.contexts.map Context.cxtId) :
    s'.Rejects T cfg ↔ s.Rejects T cfg := by
  have hids : ∀ s : SwitchWContexts Objects Config,
      s.Rejects T cfg ↔ ∃ id ∈ s.contexts.map Context.cxtId, T.Rejects id cfg := by
    intro s
    simp [Rejects]
  rw [hids, hids, h]

/-- **A call that loads no rejected configuration** leaves no objects of one. -/
theorem Sound.step (hs : s.Sound T) (hin : s.InStep)
    (hop : ∀ cfg, op = .loadNewConfig cfg → s.Rejects T cfg →
      s.enableSwap = false ∨ s.SwapPending)
    (h : s.step T op = some s') : s'.Sound T := by
  obtain ⟨hmoves, hcfg⟩ := step_moves hin h
  have haccepted : ∀ cfg, s.TakesUp op cfg → ¬ s.Rejects T cfg := by
    rintro cfg ⟨heq, he, hp⟩ hrej
    rcases hop cfg heq hrej with hdisabled | hpending
    · rw [he] at hdisabled
      cases hdisabled
    · exact hp hpending
  refine ⟨fun cxt' hcxt' => ?_, ?_⟩
  · obtain ⟨i, hi, rfl⟩ := List.getElem_of_mem hcxt'
    have hlt : i < s.contexts.length := hmoves.length_eq ▸ hi
    have hcxt := List.getElem_mem hlt
    exact (hmoves.get hlt hi).sound (hs.contexts _ hcxt) fun cfg htakes hrej =>
      haccepted cfg htakes ⟨_, hcxt, hrej⟩
  · rw [rejects_congr (step_ids hin h)]
    rcases hcfg with hsame | htakes
    · rw [hsame]
      exact hs.reported
    · exact .inr (haccepted _ htakes)

/-! ## The start -/

theorem new_spec {enableSwap : Bool} {forceArith : List Bool} {cxt : Context Objects}
    (h : cxt ∈ (new T enableSwap forceArith).contexts) :
    cxt.p4objects = T.fresh ∧ cxt.p4objectsRt = none ∧ cxt.swapOrdered = false := by
  obtain ⟨i, hi, rfl⟩ := List.mem_mapIdx.mp h
  exact ⟨rfl, rfl, rfl⟩

theorem Starts.sound (h : Starts T s) : s.Sound T ∧ s.InStep := by
  obtain ⟨enableSwap, forceArith, start, h⟩ := h
  have hnew : ∀ cxt ∈ (new T enableSwap forceArith).contexts,
      cxt.Sound T ∧ cxt.rt = T.fresh ∧ cxt.p4objectsRt = none ∧ cxt.swapOrdered = false := by
    intro cxt hcxt
    obtain ⟨hactive, hrt, hordered⟩ := new_spec hcxt
    refine ⟨⟨hactive ▸ .fresh, by simp [hrt]⟩, ?_, hrt, hordered⟩
    rw [Context.rt, hrt, hactive]
    rfl
  cases start with
  | none =>
    obtain rfl := Option.some.inj h
    exact ⟨⟨fun cxt hcxt => (hnew cxt hcxt).1, .inl rfl⟩,
      .of_quiet fun cxt hcxt => (hnew cxt hcxt).2.2⟩
  | some cfg =>
    -- A start with a configuration goes on only if every context accepts it.
    rw [initObjects] at h
    split_ifs at h with hall
    obtain rfl := Option.some.inj h
    rw [List.all_eq_true] at hall
    have haccepted : ∀ cxt ∈ (new T enableSwap forceArith).contexts,
        ¬ T.Rejects cxt.cxtId cfg := by
      intro cxt hcxt hrej
      have hzero := of_decide_eq_true (hall cxt hcxt)
      rw [Context.initObjects_status, (hnew cxt hcxt).2.1] at hzero
      exact hrej hzero
    refine ⟨⟨fun cxt' hcxt' => ?_, .inr ?_⟩, .of_quiet fun cxt' hcxt' => ?_⟩
    · obtain ⟨cxt, hcxt, rfl⟩ := List.mem_map.mp hcxt'
      obtain ⟨hsound, hrt, -⟩ := hnew cxt hcxt
      exact hsound.initObjects hrt (haccepted cxt hcxt)
    · rintro ⟨cxt', hcxt', hrej⟩
      obtain ⟨cxt, hcxt, rfl⟩ := List.mem_map.mp hcxt'
      rw [Context.cxtId_initObjects] at hrej
      exact haccepted cxt hcxt hrej
    · obtain ⟨cxt, hcxt, rfl⟩ := List.mem_map.mp hcxt'
      obtain ⟨-, -, hrt, hordered⟩ := hnew cxt hcxt
      rw [Context.swapOrdered_initObjects, ← Option.not_isSome_iff_eq_none,
        Context.isSome_initObjects, hrt]
      exact ⟨by simp, hordered⟩

/-! ## Runs -/

theorem InStep.run (hin : s₀.InStep) (h : run T s₀ ops = some s) : s.InStep :=
  Runs.invariant (fun _ _ _ hin hstep => hin.step hstep) hin h

theorem Sound.run (hs : s₀.Sound T) (hin : s₀.InStep) (hsafe : SafeLoads T s₀ ops)
    (h : run T s₀ ops = some s) : s.Sound T := by
  have hkept : ∀ (s : SwitchWContexts Objects Config) op s', s.Sound T ∧ s.InStep →
      (∀ cfg, op = .loadNewConfig cfg → s.Rejects T cfg → s.enableSwap = false ∨ s.SwapPending) →
      s.step T op = some s' → s'.Sound T ∧ s'.InStep := by
    rintro s op s' ⟨hs, hin⟩ hop hstep
    exact ⟨hs.step hin hop hstep, hin.step hstep⟩
  exact (hsafe.invariant hkept ⟨hs, hin⟩ h).1

/-- **Rejected configurations.** In every state that a switch reaches, loading a
configuration that some context rejects fails and changes nothing exactly when
swaps are disabled or one is pending. As long as rejected configurations are
loaded only then, no context ever has objects of one, neither active nor for the
next swap. -/
theorem load_new_config_runs (h₀ : Starts T s₀) (hrun : run T s₀ ops = some s) :
    (∀ cfg, s.Rejects T cfg →
      (s.FailsCleanly T cfg ↔ s.enableSwap = false ∨ s.SwapPending)) ∧
    (SafeLoads T s₀ ops → s.Sound T) := by
  obtain ⟨hsound, hin₀⟩ := h₀.sound
  have hin := hin₀.run hrun
  refine ⟨fun cfg _ => ⟨fun hfails => ?_, fun hcond => ?_⟩, fun hsafe =>
    hsound.run hin₀ hsafe hrun⟩
  · by_contra hnot
    rw [not_or, Bool.not_eq_false] at hnot
    obtain ⟨he, hp⟩ := hnot
    exact not_failsCleanly_of_enabled he hp hfails
  · rcases loadNewConfig_cases T cfg hin with ⟨-, herr, hsame⟩ | ⟨he, hp⟩
    · exact ⟨herr, by rw [hsame], by rw [hsame]⟩
    · rcases hcond with hdisabled | hpending
      · rw [he] at hdisabled
        cases hdisabled
      · exact absurd hpending hp

end SwitchWContexts

/-! ## A rejected configuration, loaded -/

/-- Objects that keep the number of their configuration. Number 0 is rejected with
a status, after the objects have been marked with it. -/
def numbered : Target (Option ℕ) ℕ Unit Unit where
  fresh := none
  initObjects := fun _ cfg _ => (some (if cfg = 0 then 1 else 0), some cfg)
  enableAllArith := id
  request := fun _ => id
  process := fun _ => id
  emptyConfig := 0

namespace SwitchWContexts

theorem load_new_config_runs_numbered :
    ∃ s₀ s, Starts numbered s₀ ∧
      run numbered s₀ [.loadNewConfig 5, .loadNewConfig 0, .swapConfigs] = some s ∧
      SafeLoads numbered s₀ [.loadNewConfig 5, .loadNewConfig 0, .swapConfigs] ∧
      s.contexts.map Context.p4objects = [some 5, some 5] ∧ s.Sound numbered := by
  have h₀ : Starts numbered (new numbered true [false, true]) := ⟨true, [false, true], none, rfl⟩
  have hsafe : SafeLoads numbered (new numbered true [false, true])
      [.loadNewConfig 5, .loadNewConfig 0, .swapConfigs] := by
    refine ⟨?_, fun s₁ hs₁ => ?_⟩
    · rintro cfg ⟨⟩ ⟨cxt, -, hrej⟩
      exact absurd rfl hrej
    · obtain rfl := Option.some.inj hs₁
      refine ⟨fun _ _ _ => .inr ⟨_, List.mem_cons_self, rfl⟩, fun s₂ _ => ⟨?_, fun _ _ => trivial⟩⟩
      rintro cfg ⟨⟩
  exact ⟨_, _, h₀, rfl, hsafe, rfl, (load_new_config_runs h₀ rfl).2 hsafe⟩

/-- **A rejected configuration goes live.** The load is reported as a success, and
the next swap makes the half-built objects those of the packets. -/
theorem rejected_config_installed :
    ∃ s₀ s s' : SwitchWContexts (Option ℕ) ℕ, Starts numbered s₀ ∧ s₀.Rejects numbered 0 ∧
      s₀.contexts.map Context.p4objects = [some 5] ∧ s₀.currentConfig = 5 ∧
      s₀.loadNewConfig numbered 0 = (some .success, s) ∧ ¬ s₀.FailsCleanly numbered 0 ∧
      s.currentConfig = 0 ∧ s.swapConfigs = some (.success, s') ∧
      s'.contexts.map Context.p4objects = [some 0] := by
  refine ⟨_, _, _, ⟨true, [false], some 5, rfl⟩, ⟨_, List.mem_cons_self, fun h => Int.one_ne_zero (Option.some.inj h)⟩, rfl, rfl, rfl,
    fun h => h.1 rfl, rfl, rfl, rfl⟩

end SwitchWContexts

end Switch

end P4Bricks
