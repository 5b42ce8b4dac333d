import DemandPlan.Registry
import DemandPlan.Validation.Fields
import DemandPlan.Validation.Scalar

/-!
# Configurations

What a planner does with duplicates, and what it remembers.
-/

namespace DemandPlan

/-- The configuration of a planner. -/
structure Config where
  onDuplicate : DuplicatePolicy := .override
  /-- Whether plans are kept for later requests. -/
  cachePlans : Bool := true
  /-- How many requirements are remembered. -/
  memoSize : Nat := 256
  deriving DecidableEq, Repr

namespace Config

/-- Reads a policy, which has to be one of the two words. -/
def asPolicy : Json → Checked DuplicatePolicy
  | .str "override" => .ok .override
  | .str "error" => .ok .error
  | _ => .refuse .literalError

/-- Reads a whole number that is not negative. -/
def asSize (v : Json) : Checked Nat :=
  match v.asInt with
  | .ok n => if n < 0 then .refuse .greaterThanEqual else .ok n.toNat
  | .error issues => .error issues

/-- The configuration that fields declare. No other fields may be there. -/
def ofFields (fs : Fields) : Checked Config :=
  fs.forbidExtras ["on_duplicate", "cache_plans", "params_cache_size"]
    ((((Checked.pass Config.mk).ap (fs.optional "on_duplicate" .override asPolicy)).ap
      (fs.optional "cache_plans" true (Json.asBool .value))).ap
      (fs.optional "params_cache_size" 256 asSize))

end Config

end DemandPlan
