import DemandPlan.Concurrent
import DemandPlan.Config
import DemandPlan.Memo
import DemandPlan.Plan.Link
import DemandPlan.PlanCache

/-!
# Planners

A planner answers queries over one registry: what a query needs, a plan for it, and the values
themselves. It keeps plans and requirements for later queries and drops them all as soon as it sees
that the registry has changed.

Everything that is made anew gets a stamp of its own, so that one can see whether two answers are
the very same plan.
-/

namespace DemandPlan

/-- A value with a stamp that no other value has. -/
structure Stamped (α : Type) where
  stamp : Nat
  value : α

/-- A registry with what is remembered about it. -/
structure Planner (V E : Type) where
  registry : Registry V E
  config : Config := {}
  plans : PlanCache (Stamped (Plan V E)) := {}
  memo : Memo (Stamped (Requirements V E)) := { capacity := config.memoSize }
  /-- The version of the registry that the plans and the memo are about. -/
  seenVersion : Nat := registry.version
  /-- How many stamps have been given. -/
  issued : Nat := 0

/-- Requests to a planner. What is remembered stays remembered when a request fails. -/
abbrev PlannerM (V E : Type) := ExceptT (Failure E) (StateM (Planner V E))

namespace Planner

variable {V E : Type}

/-- A planner for some operations, which are added to a registry if there is one. -/
def ofOperations (ops : List (Operation V E)) (config : Config := {})
    (registry : Option (Registry V E) := none) : Except Error (Planner V E) :=
  let empty : Registry V E :=
    { operations := [], nodup := List.nodup_nil, onDuplicate := config.onDuplicate }
  match (registry.getD empty).registerMany ops with
  | (registry, .ok ()) => .ok { registry, config }
  | (_, .error e) => .error e

/-- One line about a planner. -/
def describe (p : Planner V E) : String :=
  "Compiler(operations=" ++ toString p.registry.size ++ ", plans=" ++ toString p.plans.size ++ ")"

/-- The planner without anything remembered. -/
def forget (p : Planner V E) : Planner V E :=
  { p with plans := p.plans.clear, memo := p.memo.clear }

/-- The planner without what was remembered about another version of the registry. -/
def refreshed (p : Planner V E) : Planner V E :=
  if p.registry.version = p.seenVersion then p
  else { p.forget with seenVersion := p.registry.version }

/-! ## Changes to the registry -/

/-- Registers an operation. -/
def register (op : Operation V E) (override : Option Bool := none) : PlannerM V E Unit := do
  match (← get).registry.register op override with
  | .ok registry => modify ({ · with registry })
  | .error e => throw (.reported e)

/-- Removes a name; the answer is whether it was registered. -/
def unregister (name : String) : PlannerM V E Bool := do
  let registry := (← get).registry
  modify ({ · with registry := registry.remove name })
  return registry.contains name

/-! ## Queries -/

/-- Gives a value a new stamp. -/
def stamp {α : Type} (value : α) : PlannerM V E (Stamped α) := do
  let issued := (← get).issued
  modify ({ · with issued := issued + 1 })
  return { stamp := issued, value }

/-- What a query needs, remembered or found anew. -/
def lookUp (wanted hints : List String) : PlannerM V E (Stamped (Requirements V E)) := do
  let p ← get
  let (answer, memo) ←
    p.memo.getOrCompute wanted hints (stamp (Requirements.find p.registry wanted hints))
  modify ({ · with memo })
  match answer with
  | some q => return q
  | none => throw .nothingToEvict

/-- A new plan for a query. -/
def build (wanted hints : List String) : PlannerM V E (Stamped (Plan V E)) := do
  let q := (← lookUp wanted hints).value
  match Schedule.ofOperations q.operations (q.params ++ hints) with
  | .error e => throw (.reported e)
  | .ok s =>
    match Plan.ofSchedule s q.params wanted with
    | .error name => throw (.noSuchKey name)
    | .ok plan => stamp plan

/-- What a query needs. -/
def requirements (wanted hints : List String) : PlannerM V E (Stamped (Requirements V E)) := do
  modify refreshed
  lookUp wanted hints

/-- A new plan for a query, whatever plans are kept. -/
def compile (wanted hints : List String) : PlannerM V E (Stamped (Plan V E)) := do
  modify refreshed
  build (Names.distinct wanted) hints

/-- A plan for a query, which is kept for later queries like it if the configuration says so. -/
def planFor (wanted hints : List String) : PlannerM V E (Stamped (Plan V E)) := do
  modify refreshed
  let wanted := Names.distinct wanted
  let p ← get
  if p.config.cachePlans then
    let (plan, plans) ← p.plans.getOrCompile (fun plan => plan.value.record.params) wanted
      (do return (← lookUp wanted hints).value.params) (build wanted hints)
    modify ({ · with plans })
    return plan
  else build wanted hints

/-- Links a record against the registry. -/
def load (source : Source) : PlannerM V E (Stamped (Plan V E)) := do
  match Plan.load source (← get).registry with
  | .ok plan => stamp plan
  | .error e => throw (.reported e)

/-- What comes of calling a plan that has been asked for, at once. -/
def invoked (registered : List (Operation V E)) (args : Table V) :
    Except (Failure E) (Plan V E) → Invocation V E
  | .ok plan => plan.call registered args
  | .error f => { awaited := false, run := .failure f }

/-- Asks for a plan for the wanted outputs that takes every argument as given, and calls it. -/
def planAndCall (wanted : List String) (args : Table V) :
    StateM (Planner V E) (Except (Failure E) (Stamped (Plan V E)) × Invocation V E) := do
  let plan ← (planFor wanted args.keys).run
  return (plan, invoked (← get).registry.operations args (plan.map Stamped.value))

/-- Computes the wanted outputs with a plan. -/
def calculate (wanted : List String) (args : Table V) : StateM (Planner V E) (Invocation V E) := do
  return (← planAndCall wanted args).2

/-- The same, always as something to wait for. -/
def calculateLater (wanted : List String) (args : Table V) :
    StateM (Planner V E) (Invocation V E) := do
  return { (← calculate wanted args) with awaited := true }

/-- Computes the wanted outputs without a plan. -/
def evaluate (p : Planner V E) (wanted : List String) (args : Table V) : Run (Failure E) (Table V) :=
  Evaluation.evaluate p.registry wanted args

/-- Computes the wanted outputs without a plan, waiting for asynchronous operations. -/
def evaluateLater (p : Planner V E) (wanted : List String) (args : Table V) :
    Run (Failure E) (Table V) :=
  Concurrent.evaluate p.registry wanted args

end Planner

end DemandPlan
