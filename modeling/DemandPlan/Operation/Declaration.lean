import DemandPlan.Operation.Basic
import DemandPlan.Validation.Fields
import DemandPlan.Validation.Scalar

/-!
# Declaring operations

An operation is declared by an assignment or by its fields, which come as plain data and are
checked. What is left open is inferred: an operation that does not say whether it is asynchronous
is so exactly when its implementation is a coroutine.
-/

namespace DemandPlan

/-- Why a declaration is refused. -/
inductive Declaration.Fault
  | assignment (fault : Assignment.Fault)
  /-- Both an assignment and an output are given, or neither. -/
  | assignmentAndOutput
  /-- There is a field that such a declaration does not have. -/
  | unknownField
  /-- What is given as inputs is nothing that can be gone through. -/
  | inputsNotSequence
  | invalid (issues : List Issue)
  deriving DecidableEq

/-- What is wrong, in words, where there are words for it. -/
def Declaration.Fault.message? : Declaration.Fault → Option String
  | .assignment fault => some fault.message
  | .assignmentAndOutput =>
    some "operation() takes either an assignment or output=, not both"
  | .unknownField | .inputsNotSequence | .invalid _ => none

namespace Operation

variable {V E : Type}

/-- The name of an output, which is not empty. -/
def asOutput (v : Json) : Checked String :=
  match v.asString with
  | .ok s => if s.isEmpty then .refuse .stringTooShort else .ok s
  | .error issues => .error issues

/-- Whether an operation is asynchronous: as its fields say, else as its implementation is. -/
def readIsAsync (fs : Fields) (impl : Option (Implementation V E)) : Checked Bool :=
  match fs.find? "is_async" with
  | none | some .null => .ok (impl.any fun i => i.style = .coroutine)
  | some v => Checked.within (.field "is_async") (Json.asBool .value v)

/-- The operation that fields declare. Without an implementation there is one issue more; fields
that are not known are passed over. -/
def ofFields (fs : Fields) (impl : Option (Implementation V E)) : Checked (Operation V E) :=
  let callable : Checked (Implementation V E) :=
    match impl with
    | some i => .ok i
    | none => Checked.within (.field "impl") (.refuse .callableType)
  ((((Checked.pass Operation.mk).ap (fs.required "output" asOutput)).ap
    (fs.optional "inputs" [] (Json.asSequence .tupleType Json.asString))).ap callable).ap
      (readIsAsync fs impl)

/-- Whether the operation is said to be asynchronous, as a field. -/
def asyncField (isAsync : Option Json) : List (String × Json) :=
  isAsync.toList.map fun v => ("is_async", v)

/-- The operation that an assignment declares. -/
def ofAssignment (text : String) (impl : Option (Implementation V E)) (isAsync : Option Json) :
    Except Declaration.Fault (Operation V E) :=
  match Assignment.parse text with
  | .error fault => .error (.assignment fault)
  | .ok a =>
    let members := [("output", .str a.output), ("inputs", .ofNames a.inputs)] ++ asyncField isAsync
    (ofFields { members } impl).mapError .invalid

/-- The operation that an assignment declares, with fields that say more about it. -/
def ofAssignmentWith (text : String) (fs : Fields) (impl : Option (Implementation V E)) :
    Except Declaration.Fault (Operation V E) :=
  if (fs.extras ["is_async"]).isEmpty then ofAssignment text impl (fs.find? "is_async")
  else .error .unknownField

/-- The items of data that can be gone through: a text has its characters, an object its names. -/
def sequenceOf? : Json → Option Json
  | .str s => some (.arr (s.toList.map fun c => .str (String.singleton c)))
  | .obj members => some (.ofNames (Json.table members).keys)
  | .arr items => some (.arr items)
  | _ => none

/-- The operation that is declared for an implementation in place, by an assignment or by an output
with its inputs. A null assignment or output counts as absent. Inputs that cannot be gone through
are refused before anything is checked. -/
def declare (assignment : Option String) (fs : Fields) (impl : Option (Implementation V E)) :
    Except Declaration.Fault (Operation V E) :=
  let isAsync := fs.find? "is_async"
  if !(fs.extras ["output", "inputs", "is_async"]).isEmpty then .error .unknownField
  else match assignment, (fs.find? "output").getD .null with
    | some text, .null => ofAssignment text impl isAsync
    | none, .null => .error .assignmentAndOutput
    | some _, _ => .error .assignmentAndOutput
    | none, output =>
      match sequenceOf? ((fs.find? "inputs").getD (.arr [])) with
      | none => .error .inputsNotSequence
      | some inputs =>
        let members := [("output", output), ("inputs", inputs)] ++ asyncField isAsync
        (ofFields { members } impl).mapError .invalid

end Operation

end DemandPlan
