import DemandPlan.Plan.Basic
import DemandPlan.Record.Load

/-!
# Linking records

A loaded record is linked against a registry: the implementation of a slot is that of the operation
whose output the record maps to the slot, and the operation has to be called as it is declared.
-/

namespace DemandPlan

namespace Plan

variable {V E : Type}

/-- How the operation for one entry of a record's formulas fares. -/
inductive Link (V E : Type)
  | missing (name : String)
  /-- The operation is called in another shape than it is declared with. -/
  | mismatched (name : String)
  | linked (slot : String) (impl : Implementation V E)

/-- Looks up the operation of a name and compares its shape with that of the calls of its slot, if
there are any. -/
def linkOne (shapes : Table Shape) (registry : Registry V E) (name slot : String) : Link V E :=
  match registry.lookup name with
  | none => .missing name
  | some op =>
    match shapes.find? slot with
    | none => .linked slot op.impl
    | some shape => if shape = op.shape then .linked slot op.impl else .mismatched name

/-- Links a loaded record against a registry. The error names every output that is not registered
and every one whose operation has another shape. -/
def link (r : Record) (registry : Registry V E) : Except Error (Plan V E) :=
  let links := r.formulas.toList.map fun e => linkOne r.callShapes registry e.1 e.2
  let missing := links.filterMap fun
    | .missing name => some name
    | _ => none
  let mismatched := links.filterMap fun
    | .mismatched name => some name
    | _ => none
  let formulas := links.filterMap fun
    | .linked slot impl => some (slot, impl)
    | _ => none
  if missing.isEmpty && mismatched.isEmpty then
    .ok { record := r, formulas := Table.ofList formulas }
  else .error (.unlinkable missing mismatched)

/-- Loads a record and links it. -/
def load (source : Source) (registry : Registry V E) : Except Error (Plan V E) := do
  link (← Record.load source) registry

end Plan

end DemandPlan
