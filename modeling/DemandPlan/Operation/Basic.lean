import DemandPlan.Activity
import DemandPlan.Operation.Assignment

/-!
# Operations

An operation computes one named value from other named values. Which names it reads, and in which
order its implementation takes them, is declared and never inferred.
-/

namespace DemandPlan

/-- A declared computation of `output` from `inputs`. -/
structure Operation (V E : Type) where
  output : String
  inputs : List String
  impl : Implementation V E
  /-- Whether the implementation is to be waited for. -/
  isAsync : Bool

namespace Operation

variable {V E : Type}

/-- The declaration of an operation as an assignment. -/
def assignment (op : Operation V E) : Assignment := { inputs := op.inputs, output := op.output }

/-- The word for synchronous or asynchronous. -/
def kindWord (isAsync : Bool) : String := if isAsync then "async" else "sync"

/-- One line about an operation. -/
def describe (op : Operation V E) : String :=
  "Operation('" ++ op.assignment.render ++ "', " ++ kindWord op.isAsync ++ ")"

/-- Computes the value from the values of the inputs, waiting for it if need be. -/
def activity (op : Operation V E) (args : List V) : Activity (Failure E) V :=
  if op.isAsync then op.impl.activity args
  else
    let r := op.impl.call args
    { opening := r.trace, outcome := r.outcome }

/-- The declaration as data, without the implementation. -/
def toJson (op : Operation V E) : Json :=
  .obj [("output", .str op.output), ("inputs", .ofNames op.inputs), ("is_async", .bool op.isAsync)]

/-- How a plan has to call the operation. -/
def shape (op : Operation V E) : Shape := ⟨op.inputs.length, op.isAsync⟩

/-- The operations in ascending order of their outputs. -/
def sorted (ops : List (Operation V E)) : List (Operation V E) :=
  ops.mergeSort fun a b => decide (a.output ≤ b.output)

theorem sorted_perm (ops : List (Operation V E)) : (sorted ops).Perm ops :=
  List.mergeSort_perm ops _

@[simp] theorem mem_sorted {op : Operation V E} {ops : List (Operation V E)} :
    op ∈ sorted ops ↔ op ∈ ops := (sorted_perm ops).mem_iff

end Operation

end DemandPlan
