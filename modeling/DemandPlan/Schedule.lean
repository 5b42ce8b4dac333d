import DemandPlan.Operation.Basic
import DemandPlan.Table

/-!
# Schedules

The required operations are laid out in waves. A wave holds every operation whose inputs are there
once the earlier waves have run, so the operations of one wave do not depend on each other: the
synchronous ones can run in any order, and the asynchronous ones all at once.

Operations that can never be ready are an error, which names them.
-/

namespace DemandPlan

/-- Operations that are ready at the same time, in ascending order of their outputs. -/
structure Wave (V E : Type) where
  sync : List (Operation V E) := []
  async : List (Operation V E) := []

/-- Waves, in the order in which they run. -/
structure Schedule (V E : Type) where
  waves : List (Wave V E) := []

variable {V E : Type}

namespace Wave

/-- The operations of a wave, the synchronous ones first. -/
def operations (w : Wave V E) : List (Operation V E) := w.sync ++ w.async

/-- The outputs of a wave. -/
def outputs (w : Wave V E) : List String := w.operations.map Operation.output

/-- The wave that runs some operations. -/
def ofReady (ready : List (Operation V E)) : Wave V E :=
  let ops := Operation.sorted ready
  { sync := ops.filter fun op => !op.isAsync
    async := ops.filter fun op => op.isAsync }

end Wave

namespace Schedule

/-- The operations, wave by wave. -/
def operations (s : Schedule V E) : List (Operation V E) := s.waves.flatMap Wave.operations

/-- Whether some operation is asynchronous. -/
def isAsync (s : Schedule V E) : Bool := s.waves.any fun w => !w.async.isEmpty

/-- Whether all inputs of an operation are there. -/
def isReady (available : List String) (op : Operation V E) : Bool :=
  op.inputs.all available.contains

/-- The operations that are ready. -/
def ready (available : List String) (ops : List (Operation V E)) : List (Operation V E) :=
  ops.filter (isReady available)

/-- The operations that are not ready. -/
def unready (available : List String) (ops : List (Operation V E)) : List (Operation V E) :=
  ops.filter fun op => !isReady available op

theorem length_unready_lt {available : List String} {ops : List (Operation V E)}
    (h : ready available ops ≠ []) : (unready available ops).length < ops.length := by
  unfold ready at h
  unfold unready
  rw [← List.countP_eq_length_filter]
  refine Nat.lt_of_le_of_ne List.countP_le_length fun hl => h ?_
  rw [List.countP_eq_length] at hl
  rw [List.filter_eq_nil_iff]
  intro op hop
  simpa using hl op hop

/-- The waves of what remains, when some names are there already; if nothing is ready, the outputs
of what remains. -/
def layer (available : List String) (remaining : List (Operation V E)) :
    Except (List String) (List (Wave V E)) :=
  if remaining.isEmpty then .ok []
  else if h : ready available remaining = [] then .error (remaining.map Operation.output)
  else
    have := length_unready_lt h
    (layer (available ++ (ready available remaining).map Operation.output)
      (unready available remaining)).map (Wave.ofReady (ready available remaining) :: ·)
termination_by remaining.length

/-- One operation for each output: the last one, in the place of the first one. -/
def distinctOutputs (ops : List (Operation V E)) : List (Operation V E) :=
  (Table.ofList (ops.map fun op => (op.output, op))).values

/-- Lays out operations when some names are there already. -/
def ofOperations (ops : List (Operation V E)) (available : List String) :
    Except Error (Schedule V E) :=
  match layer available (distinctOutputs ops) with
  | .ok waves => .ok { waves }
  | .error stuck => .error (.cycleAmong stuck)

end Schedule

end DemandPlan
