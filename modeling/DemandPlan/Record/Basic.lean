import DemandPlan.Error
import DemandPlan.Table

/-!
# Plan records

A record is a plan as data, without any implementation. Its body is a list of steps over named
slots: bind the parameters, call formulas, collect the results. A formula is known by its slot
only, so a record can be written down and linked to other implementations later.

* `Record.calls` lists every call of the body, in order; `Record.callShapes` keeps the last one for
  each slot.
-/

namespace DemandPlan

/-- Call the formula of `slot` on the values of the slots `args`; the value goes into `slot`. -/
structure Call where
  slot : String
  args : List String := []
  deriving DecidableEq

/-- One step of a plan. -/
inductive Step
  /-- Copy each parameter into its slot. -/
  | bind (bindings : Table String)
  /-- Call a synchronous formula. -/
  | invoke (call : Call)
  /-- Call one asynchronous formula and wait for it. -/
  | await (call : Call)
  /-- Call several asynchronous formulas and wait for all of them. -/
  | gather (calls : List Call)
  /-- Give each output the value of its slot. Nothing after this step is done. -/
  | result (returns : Table String)
  deriving DecidableEq

/-- The kinds of steps. -/
inductive Step.Kind
  | bind
  | invoke
  | await
  | gather
  | result
  deriving DecidableEq, Repr

namespace Step

/-- The word for a kind of step. -/
def Kind.name : Kind → String
  | .bind => "bind"
  | .invoke => "invoke"
  | .await => "await"
  | .gather => "gather"
  | .result => "result"

/-- The kind that a word stands for. -/
def Kind.ofName? : String → Option Kind
  | "bind" => some .bind
  | "invoke" => some .invoke
  | "await" => some .await
  | "gather" => some .gather
  | "result" => some .result
  | _ => none

theorem Kind.ofName?_name (k : Kind) : ofName? k.name = some k := by cases k <;> rfl

/-- The kind of a step. -/
def kind : Step → Kind
  | .bind _ => .bind
  | .invoke _ => .invoke
  | .await _ => .await
  | .gather _ => .gather
  | .result _ => .result

/-- The calls of a step, each with whether it is waited for. -/
def calls : Step → List (Call × Bool)
  | .bind _ => []
  | .invoke c => [(c, false)]
  | .await c => [(c, true)]
  | .gather cs => cs.map (·, true)
  | .result _ => []

end Step

/-- How a formula is called: on how many arguments, and whether it is waited for. -/
structure Shape where
  arity : Nat
  awaited : Bool
  deriving DecidableEq, Repr

/-- A plan without its implementations. -/
structure Record where
  /-- The slot of each operation's output. -/
  formulas : Table String := .empty
  /-- The names that a caller has to supply. -/
  params : List String := []
  /-- The outputs, in the order of the request. -/
  returns : List String := []
  /-- Whether a run has to be waited for. -/
  isAsync : Bool := false
  body : List Step := []
  version : Int := Error.supportedVersion
  deriving DecidableEq

namespace Record

/-- The slots of the parameters, as the first bind step gives them. -/
def bindings (r : Record) : Table String :=
  (r.body.findSome? fun
    | .bind b => some b
    | _ => none).getD .empty

/-- The slots of all names: of the parameters, then of the operations' outputs. -/
def slotOf (r : Record) : Table String := r.bindings.merge r.formulas

/-- Every call of the body, in order, each with whether it is waited for. -/
def calls (r : Record) : List (Call × Bool) := r.body.flatMap Step.calls

/-- The shape in which each slot is called; of several calls the last one counts. -/
def callShapes (r : Record) : Table Shape :=
  Table.ofList (r.calls.map fun c => (c.1.slot, ⟨c.1.args.length, c.2⟩))

/-- The slots that are waited for, in ascending order. -/
def asyncSlots (r : Record) : List String :=
  Names.sorted ((r.callShapes.toList.filter fun e => e.2.awaited).map Prod.fst)

end Record

end DemandPlan
