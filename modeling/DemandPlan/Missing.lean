import DemandPlan.Operation.Basic

/-!
# Missing arguments

Which outputs are blocked by missing names. The answer looks one step ahead only: it names the
operations that read a missing name themselves, which may be far below what the caller has asked
for.
-/

namespace DemandPlan

variable {V E : Type}

/-- The outputs of the operations that read a missing name, in the order of the operations. -/
def blockedOutputs (ops : List (Operation V E)) (missing : List String) : List String :=
  (ops.filter fun op => op.inputs.any missing.contains).map Operation.output

/-- The error of a run that lacks some of its parameters. -/
def missingArguments (ops : List (Operation V E)) (missing : List String) : Error :=
  .missingArguments missing (blockedOutputs ops missing)

end DemandPlan
