import DemandPlan.FanOut
import DemandPlan.Missing
import DemandPlan.Record.Layout
import DemandPlan.Registry

/-!
# Plans

A plan is a record whose slots are linked to implementations. It is run on a table of arguments:
its steps are done one after the other over a table of slots, and the answer is the table of the
wanted outputs. Nothing is computed unless all parameters are there.

A plan that is asynchronous returns at once with something that has to be waited for; whatever goes
wrong in its steps comes out of the waiting.
-/

namespace DemandPlan

/-- The operations that a plan names when arguments are missing: those that are registered at that
moment, or a fixed list. -/
inductive Consulted (V E : Type)
  | registered
  | fixed (ops : List (Operation V E))

/-- A record that is linked to implementations. -/
structure Plan (V E : Type) where
  record : Record
  /-- The implementation of each slot. -/
  formulas : Table (Implementation V E)
  consulted : Consulted V E := .registered

/-- What comes of calling a plan. -/
structure Invocation (V E : Type) where
  /-- Whether the call returns something to wait for, and the run is that of the waiting. -/
  awaited : Bool
  run : Run (Failure E) (Table V)

namespace Plan

variable {V E : Type}

/-- One line about a plan. -/
def describe (p : Plan V E) : String :=
  "Calculator(returns=" ++ Text.quotedList p.record.returns ++ ", params=" ++
    Text.quotedList p.record.params ++ ", " ++ Operation.kindWord p.record.isAsync ++ ")"

/-- The plan that runs a schedule. -/
def ofSchedule (s : Schedule V E) (params returns : List String)
    (consulted : Consulted V E := .registered) : Except String (Plan V E) := do
  let record ← Record.ofSchedule s params returns
  let formulas ← s.operations.mapM fun op => do
    let slot ← Record.slotFor record.formulas op.output
    return (slot, op.impl)
  return { record, formulas := Table.ofList formulas, consulted }

/-! ## Running -/

/-- The value of a name that has to be there. -/
def require {α : Type} (t : Table α) (name : String) : Except (Failure E) α :=
  match t.find? name with
  | some a => .ok a
  | none => .error (.noSuchKey name)

/-- The implementation that a call is for and the values it is called on. -/
def prepare (p : Plan V E) (slots : Table V) (c : Call) :
    Except (Failure E) (Implementation V E × List V) := do
  let impl ← require p.formulas c.slot
  let args ← c.args.mapM (require slots)
  return (impl, args)

/-- A call that is waited for. If it cannot be prepared, it fails at once. -/
def activity (p : Plan V E) (slots : Table V) (c : Call) : Activity (Failure E) V :=
  match p.prepare slots c with
  | .ok (impl, args) => impl.activity args
  | .error f => { outcome := .error f }

/-- The slots after each parameter has been copied into its slot. -/
def bindAll (args : Table V) (bindings : Table String) (slots : Table V) :
    Except (Failure E) (Table V) :=
  bindings.toList.foldlM (fun slots b => return slots.insert b.2 (← require args b.1)) slots

/-- The outputs with the values of their slots. -/
def collect (slots : Table V) (returns : Table String) : Except (Failure E) (Table V) := do
  let values ← returns.toList.mapM fun r => return (r.1, ← require slots r.2)
  return Table.ofList values

/-- The slots after values have been put into the slots of their calls. -/
def store (slots : Table V) (calls : List Call) (values : List V) : Table V :=
  (calls.zip values).foldl (fun slots e => slots.insert e.1.slot e.2) slots

/-- Does one step. A synchronous plan cannot wait. -/
def step (p : Plan V E) (args slots : Table V) : Step → Run (Failure E) (Table V)
  | .bind bindings => .ofExcept (bindAll args bindings slots)
  | .invoke c => do
    let (impl, values) ← Run.ofExcept (p.prepare slots c)
    return slots.insert c.slot (← impl.call values)
  | .await c =>
    if p.record.isAsync then do return slots.insert c.slot (← (p.activity slots c).run)
    else .failure (.asynchronousStep .await)
  | .gather cs =>
    if p.record.isAsync then do return store slots cs (← FanOut.gather (cs.map (p.activity slots)))
    else .failure (.asynchronousStep .gather)
  | .result returns => .ofExcept (collect slots returns)

/-- Does the steps up to the first result step. Without one there are no outputs. -/
def runFrom (p : Plan V E) (args slots : Table V) : List Step → Run (Failure E) (Table V)
  | [] => pure .empty
  | .result returns :: _ => p.step args slots (.result returns)
  | s :: steps => do p.runFrom args (← p.step args slots s) steps

/-- The parameters that are not among the arguments. -/
def missing (p : Plan V E) (args : Table V) : List String :=
  p.record.params.filter fun name => !args.contains name

/-- Refuses arguments that lack a parameter, with the outputs that are blocked by it. -/
def check (p : Plan V E) (registered : List (Operation V E)) (args : Table V) : Except Error Unit :=
  let missing := p.missing args
  if missing.isEmpty then .ok ()
  else
    .error (missingArguments
      (match p.consulted with
        | .registered => registered
        | .fixed ops => ops) missing)

/-- Calls a plan, `registered` being the operations that are registered at this moment. -/
def call (p : Plan V E) (registered : List (Operation V E)) (args : Table V) : Invocation V E :=
  match p.check registered args with
  | .error e => { awaited := false, run := .failure (.reported e) }
  | .ok () => { awaited := p.record.isAsync, run := p.runFrom args .empty p.record.body }

end Plan

end DemandPlan
