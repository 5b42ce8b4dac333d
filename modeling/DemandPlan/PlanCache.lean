import DemandPlan.Names
import DemandPlan.Table

/-!
# Plan caches

A plan is kept under the set of outputs it computes and, below that, under the set of parameters it
needs. So two requests share a plan if they want the same outputs and need the same parameters,
even if what the callers already have is different. Nothing is ever dropped, except all at once.
-/

namespace DemandPlan

/-- Plans by the key of their outputs, then by the key of their parameters. -/
structure PlanCache (P : Type) where
  buckets : Table (Table P) := .empty

namespace PlanCache

variable {P : Type}

/-- How many plans are kept. -/
def size (c : PlanCache P) : Nat := c.buckets.total Table.size

/-- The cache without any plan. -/
def clear (_ : PlanCache P) : PlanCache P := {}

/-- One line about a cache. -/
def describe (c : PlanCache P) : String :=
  "PlanCache(outputs=" ++ toString c.buckets.size ++ ", plans=" ++ toString c.size ++ ")"

/-- The plan for some wanted outputs: the one that is kept, else a new one, which is kept from then
on. The parameters have to be found out only if there are plans for these outputs. A plan that
cannot be built leaves the cache as it is. -/
def getOrCompile {m : Type → Type} [Monad m] (c : PlanCache P) (paramsOf : P → List String)
    (wanted : List String) (params : m (List String)) (build : m P) : m (P × PlanCache P) :=
  let outputsKey := Names.canonicalKey wanted
  match c.buckets.find? outputsKey with
  | none => do
    let p ← build
    let bucket := Table.empty.insert (Names.canonicalKey (paramsOf p)) p
    return (p, { buckets := c.buckets.insert outputsKey bucket })
  | some bucket => do
    let paramsKey := Names.canonicalKey (← params)
    match bucket.find? paramsKey with
    | some p => return (p, c)
    | none => do
      let p ← build
      return (p, { buckets := c.buckets.insert outputsKey (bucket.insert paramsKey p) })

end PlanCache

end DemandPlan
