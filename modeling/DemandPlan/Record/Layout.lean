import DemandPlan.Record.Basic
import DemandPlan.Schedule

/-!
# Laying out a record

Every parameter and every output of a schedule gets a slot, `v0`, `v1` and so on: the parameters
first, then the operations wave by wave. The body binds the parameters, goes through the waves (in
each the synchronous calls first, then the asynchronous ones, all at once) and collects the wanted
outputs.
-/

namespace DemandPlan.Record

variable {V E : Type}

/-- The slot with a number. -/
def slotName (n : Nat) : String := "v" ++ toString n

/-- Slots for names, numbered from `start` on. -/
def numbered (start : Nat) (names : List String) : Table String :=
  Table.ofList ((names.zipIdx start).map fun e => (e.1, slotName e.2))

/-- The slot of a name. A name without slot is returned as the error. -/
def slotFor (slots : Table String) (name : String) : Except String String :=
  match slots.find? name with
  | some slot => .ok slot
  | none => .error name

/-- The call that runs an operation. -/
def callFor (slots : Table String) (op : Operation V E) : Except String Call := do
  let slot ← slotFor slots op.output
  let args ← op.inputs.mapM (slotFor slots)
  return { slot, args }

/-- The step that makes asynchronous calls: none if there are none, and no fan-out for a single
one. -/
def asyncSteps : List Call → List Step
  | [] => []
  | [c] => [.await c]
  | cs => [.gather cs]

/-- The steps that run a wave. -/
def stepsFor (slots : Table String) (w : Wave V E) : Except String (List Step) := do
  let sync ← w.sync.mapM (callFor slots)
  let async ← w.async.mapM (callFor slots)
  return sync.map Step.invoke ++ asyncSteps async

/-- The slot of each wanted name. -/
def resultFor (slots : Table String) (returns : List String) : Except String (Table String) :=
  (returns.mapM fun name => (slotFor slots name).map (name, ·)).map Table.ofList

/-- The record that runs a schedule. It is an error, named by the first such name, if an input or a
wanted output is neither a parameter nor computed. -/
def ofSchedule (s : Schedule V E) (params returns : List String) : Except String Record := do
  let bindings := numbered 0 params
  let formulas := numbered params.length (s.operations.map Operation.output)
  let slots := bindings.merge formulas
  let steps ← s.waves.mapM (stepsFor slots)
  let result ← resultFor slots returns
  return {
    formulas
    params
    returns := Names.distinct returns
    isAsync := s.isAsync
    body := .bind bindings :: steps.flatten ++ [.result result] }

end DemandPlan.Record
