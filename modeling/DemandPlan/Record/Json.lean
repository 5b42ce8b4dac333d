import DemandPlan.Json.Printer
import DemandPlan.Json.Reader
import DemandPlan.Record.Basic
import DemandPlan.Validation.Fields
import DemandPlan.Validation.Scalar

/-!
# Records as JSON

A record is written as an object with its fields in a fixed order, and each step as an object with
its kind. Reading checks every field and reports all issues. Steps and calls may not have other
fields, the record may.

* `Record.toJson` and `Record.render` write; `Record.ofJson` reads.
-/

namespace DemandPlan

/-- The issue of a step that is no object. -/
def Origin.stepIssue : Origin → Issue.Kind
  | .text => .dictType
  | .value => .modelAttributesType

namespace Call

/-- The fields of a call. -/
def members (c : Call) : List (String × Json) :=
  [("slot", .str c.slot), ("args", .ofNames c.args)]

/-- A call as JSON. -/
def toJson (c : Call) : Json := .obj c.members

/-- Reads the fields of a call. -/
def ofFields (fs : Fields) : Checked Call :=
  ((Checked.pass Call.mk).ap (fs.required "slot" Json.asString)).ap
    (fs.optional "args" [] (Json.asSequence .tupleType Json.asString))

/-- Reads a call. -/
def ofJson : Json → Checked Call
  | .obj members =>
    let fs : Fields := { members }
    fs.forbidExtras ["slot", "args"] (ofFields fs)
  | _ => .refuse .modelType

end Call

namespace Step

/-- A step as JSON. -/
def toJson : Step → Json
  | .bind bindings => .obj [("kind", .str Kind.bind.name), ("bindings", .ofTable bindings)]
  | .invoke c => .obj (c.members ++ [("kind", .str Kind.invoke.name)])
  | .await c => .obj (c.members ++ [("kind", .str Kind.await.name)])
  | .gather cs => .obj [("kind", .str Kind.gather.name), ("calls", .arr (cs.map Call.toJson))]
  | .result returns => .obj [("kind", .str Kind.result.name), ("returns", .ofTable returns)]

/-- Reads the fields of a step of a kind. -/
def ofFields (fs : Fields) : Kind → Checked Step
  | .bind =>
    fs.forbidExtras ["kind", "bindings"]
      ((fs.optional "bindings" .empty (Json.asTable Json.asString)).map .bind)
  | .invoke => fs.forbidExtras ["slot", "args", "kind"] ((Call.ofFields fs).map .invoke)
  | .await => fs.forbidExtras ["slot", "args", "kind"] ((Call.ofFields fs).map .await)
  | .gather =>
    fs.forbidExtras ["kind", "calls"]
      ((fs.required "calls" (Json.asSequence .tupleType Call.ofJson)).map .gather)
  | .result =>
    fs.forbidExtras ["kind", "returns"]
      ((fs.optional "returns" .empty (Json.asTable Json.asString)).map .result)

/-- Reads a step. Its kind says which fields it has, and stands in the place of their issues. -/
def ofJson (origin : Origin) : Json → Checked Step
  | .obj members =>
    let fs : Fields := { members }
    match fs.find? "kind" with
    | none => .refuse .unionTagNotFound
    | some (.str word) =>
      match Kind.ofName? word with
      | some kind => Checked.within (.field kind.name) (ofFields fs kind)
      | none => .refuse .unionTagInvalid
    | some _ => .refuse .unionTagInvalid
  | _ => .refuse origin.stepIssue

end Step

namespace Record

/-- A record as JSON. -/
def toJson (r : Record) : Json :=
  .obj [
    ("formulas", .ofTable r.formulas),
    ("params", .ofNames r.params),
    ("returns", .ofNames r.returns),
    ("is_async", .bool r.isAsync),
    ("body", .arr (r.body.map Step.toJson)),
    ("version", .int r.version)]

/-- The text of a record. -/
def render (l : Json.Layout) (r : Record) : String := r.toJson.render l

/-- A list of names. -/
def namesOf : Json → Checked (List String) := Json.asSequence .listType Json.asString

/-- Reads a record. -/
def ofJson (origin : Origin) : Json → Checked Record
  | .obj members =>
    let fs : Fields := { members }
    ((((((Checked.pass Record.mk).ap
      (fs.optional "formulas" .empty (Json.asTable Json.asString))).ap
      (fs.optional "params" [] namesOf)).ap
      (fs.optional "returns" [] namesOf)).ap
      (fs.optional "is_async" false (Json.asBool origin))).ap
      (fs.optional "body" [] (Json.asSequence .listType (Step.ofJson origin)))).ap
      (fs.optional "version" Error.supportedVersion Json.asInt)
  | _ => .refuse .modelType

/-- Reads a record from what a JSON text may have been read as. -/
def ofText (v : Option Json) : Checked Record :=
  match v with
  | some v => ofJson .text v
  | none => .refuse .jsonInvalid

end Record

end DemandPlan
