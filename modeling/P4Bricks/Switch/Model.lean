import P4Bricks.Common.Runs
import Mathlib.Data.Int.Notation
import Mathlib.Data.List.Basic
/-!
# Configurations of a switch

`Context` keeps two pointers to `P4Objects`: packets go through `p4objects`,
runtime requests to `p4objects_rt`. The two are one object until a configuration
is loaded, and again once the configurations have been swapped.
`SwitchWContexts` has any number of contexts, and asks them one after the other.
-/

namespace P4Bricks

namespace Switch

/-- `RuntimeInterface::ErrorCode`. -/
inductive ErrorCode where
  | success
  | configSwapDisabled
  | ongoingSwap
  | noOngoingSwap
  deriving DecidableEq, Repr

/-- What a switch does with its `P4Objects`, whatever these are. -/
structure Target (Objects Config Request Packet : Type*) where
  /-- A new `P4Objects`. -/
  fresh : Objects
  /-- `P4Objects::init_objects` for the context of this id: the status it returns,
  `none` when an exception leaves it (text that is not JSON is read before the `try`
  block), and the objects, which are whatever it had built when it failed. -/
  initObjects : ℕ → Config → Objects → Option ℤ × Objects
  /-- `PHVFactory::enable_all_arith` on the factory of the objects. -/
  enableAllArith : Objects → Objects
  /-- A request of the control plane. -/
  request : Request → Objects → Objects
  /-- A packet. -/
  process : Packet → Objects → Objects
  /-- The configuration a switch reports before one is loaded, `"{}"`. -/
  emptyConfig : Config

variable {Objects Config Request Packet : Type*}

/-- A context. `p4objectsRt` is `none` while both pointers are to one object. -/
structure Context (Objects : Type*) where
  cxtId : ℕ
  forceArith : Bool
  p4objects : Objects
  p4objectsRt : Option Objects
  swapOrdered : Bool
  deriving DecidableEq, Repr

namespace Context

variable (T : Target Objects Config Request Packet)

/-- A change of what `p4objects_rt` points to. -/
def updateRt (f : Objects → Objects) (cxt : Context Objects) : Context Objects :=
  match cxt.p4objectsRt with
  | none => { cxt with p4objects := f cxt.p4objects }
  | some objects => { cxt with p4objectsRt := some (f objects) }

/-- What `p4objects_rt` points to. -/
def rt (cxt : Context Objects) : Objects :=
  cxt.p4objectsRt.getD cxt.p4objects

/-- `Context::init_objects`. The factory of which all arithmetic is enabled is
that of `p4objects`. -/
def initObjects (cfg : Config) (cxt : Context Objects) : Option ℤ × Context Objects :=
  let (status, objects) := T.initObjects cxt.cxtId cfg cxt.rt
  let cxt := cxt.updateRt fun _ => objects
  if status ≠ some 0 then
    (status, cxt)
  else if cxt.forceArith then
    (some 0, { cxt with p4objects := T.enableAllArith cxt.p4objects })
  else
    (some 0, cxt)

/-- `Context::load_new_config`. What `init_objects` returns is not looked at, but an
exception goes on to the caller. -/
def loadNewConfig (cfg : Config) (cxt : Context Objects) :
    Option ErrorCode × Context Objects :=
  if cxt.p4objectsRt.isSome then
    (some .ongoingSwap, cxt)
  else
    let (status, cxt) := initObjects T cfg { cxt with p4objectsRt := some T.fresh }
    (status.map fun _ => .success, cxt)

/-- `Context::swap_configs`. -/
def swapConfigs (cxt : Context Objects) : ErrorCode × Context Objects :=
  if cxt.p4objectsRt.isNone then
    (.noOngoingSwap, cxt)
  else
    (.success, { cxt with swapOrdered := true })

/-- `Context::do_swap`. -/
def doSwap (cxt : Context Objects) : ℤ × Context Objects :=
  if cxt.swapOrdered then
    (0, { cxt with p4objects := cxt.rt, p4objectsRt := none, swapOrdered := false })
  else
    (1, cxt)

end Context

/-- `SwitchWContexts`. -/
structure SwitchWContexts (Objects Config : Type*) where
  contexts : List (Context Objects)
  enableSwap : Bool
  currentConfig : Config
  configLoaded : Bool
  deriving DecidableEq, Repr

/-- The contexts are asked in turn, until the answer of one is not `success`. -/
def eachContext {Answer : Type*} [DecidableEq Answer] (success : Answer)
    (f : Context Objects → Answer × Context Objects) :
    List (Context Objects) → Answer × List (Context Objects)
  | [] => (success, [])
  | cxt :: cxts =>
    if (f cxt).1 = success then
      ((eachContext success f cxts).1, (f cxt).2 :: (eachContext success f cxts).2)
    else
      ((f cxt).1, (f cxt).2 :: cxts)

/-- What a thread of the switch, or of its control plane, calls. -/
inductive Op (Config Request Packet : Type*) where
  | loadNewConfig (cfg : Config)
  | swapConfigs
  | doSwap
  | request (cxtId : ℕ) (r : Request)
  | packet (cxtId : ℕ) (p : Packet)
  | enableConfigSwap
  | disableConfigSwap
  deriving DecidableEq, Repr

namespace SwitchWContexts

variable (T : Target Objects Config Request Packet)

/-- A switch with a context for every flag of `forceArith`. -/
def new (enableSwap : Bool) (forceArith : List Bool) : SwitchWContexts Objects Config where
  contexts := forceArith.mapIdx fun id force =>
    { cxtId := id, forceArith := force, p4objects := T.fresh, p4objectsRt := none,
      swapOrdered := false }
  enableSwap := enableSwap
  currentConfig := T.emptyConfig
  configLoaded := false

/-- `SwitchWContexts::init_objects` and, without a configuration,
`SwitchWContexts::init_objects_empty`. The switch does not start, `none`, when a
context fails. -/
def initObjects (s : SwitchWContexts Objects Config) :
    Option Config → Option (SwitchWContexts Objects Config)
  | none => some s
  | some cfg =>
    if s.contexts.all fun cxt => (cxt.initObjects T cfg).1 = some 0 then
      some { s with
        contexts := s.contexts.map fun cxt => (cxt.initObjects T cfg).2
        currentConfig := cfg
        configLoaded := true }
    else
      none

/-- `SwitchWContexts::load_new_config`, which returns nothing when a context throws. -/
def loadNewConfig (cfg : Config) (s : SwitchWContexts Objects Config) :
    Option ErrorCode × SwitchWContexts Objects Config :=
  if s.enableSwap then
    match eachContext (some .success) (Context.loadNewConfig T cfg) s.contexts with
    | (some .success, cxts) =>
      (some .success, { s with contexts := cxts, currentConfig := cfg })
    | (rc, cxts) => (rc, { s with contexts := cxts })
  else
    (some .configSwapDisabled, s)

/-- `SwitchWContexts::swap_requested`. -/
def swapRequested (s : SwitchWContexts Objects Config) : Bool :=
  s.contexts.any Context.swapOrdered

/-- `SwitchWContexts::do_swap`: 0 when a context has swapped. -/
def doSwap (s : SwitchWContexts Objects Config) : ℤ × SwitchWContexts Objects Config :=
  if s.enableSwap && s.swapRequested then
    (0, { s with contexts := s.contexts.map fun cxt => cxt.doSwap.2 })
  else
    (1, s)

/-- `SwitchWContexts::swap_configs`, `none` when its assertion fails. -/
def swapConfigs (s : SwitchWContexts Objects Config) :
    Option (ErrorCode × SwitchWContexts Objects Config) :=
  if s.enableSwap then
    match eachContext .success Context.swapConfigs s.contexts with
    | (.success, cxts) =>
      let (error, s') := doSwap { s with contexts := cxts, configLoaded := true }
      if error = 0 then some (.success, s') else none
    | (rc, cxts) => some (rc, { s with contexts := cxts })
  else
    some (.configSwapDisabled, s)

/-- A change of the context of the given id. -/
def onContext (id : ℕ) (f : Context Objects → Context Objects)
    (s : SwitchWContexts Objects Config) : SwitchWContexts Objects Config :=
  { s with contexts := s.contexts.map fun cxt => if cxt.cxtId = id then f cxt else cxt }

/-- One call. The server answers a call that throws with an exception, and goes on. -/
def step (s : SwitchWContexts Objects Config) :
    Op Config Request Packet → Option (SwitchWContexts Objects Config)
  | .loadNewConfig cfg => some (s.loadNewConfig T cfg).2
  | .swapConfigs => s.swapConfigs.map Prod.snd
  | .doSwap => some s.doSwap.2
  | .request id r => some (s.onContext id (Context.updateRt (T.request r)))
  | .packet id p =>
    some (s.onContext id fun cxt => { cxt with p4objects := T.process p cxt.p4objects })
  | .enableConfigSwap => some { s with enableSwap := true }
  | .disableConfigSwap => some { s with enableSwap := false }

/-- Calls one after the other. -/
def run (s : SwitchWContexts Objects Config) (ops : List (Op Config Request Packet)) :
    Option (SwitchWContexts Objects Config) :=
  Runs.run (step T) s ops

/-- The switch has been started, with a configuration or without. -/
def Starts (s : SwitchWContexts Objects Config) : Prop :=
  ∃ enableSwap forceArith start, (new T enableSwap forceArith).initObjects T start = some s

end SwitchWContexts

end Switch

end P4Bricks
