import DemandPlan.Json.Basic

/-!
# Issues

Data from outside is checked field by field, and every issue is reported, not only the first one.
`Checked α` is a value or the list of all issues; `Checked.ap` keeps the issues of both sides, in
order.

* `Checked.ap_eq_ok_iff`: two checks pass together exactly when each of them passes.
-/

namespace DemandPlan

/-- What is wrong with a piece of data. -/
inductive Issue.Kind
  | missing
  | extraForbidden
  | stringType
  | stringTooShort
  | listType
  | tupleType
  | dictType
  | modelType
  | modelAttributesType
  | literalError
  | callableType
  | greaterThanEqual
  | frozenInstance
  | boolType
  | boolParsing
  | intType
  | intParsing
  | intParsingSize
  | intFromFloat
  | finiteNumber
  | unionTagNotFound
  | unionTagInvalid
  | jsonInvalid
  deriving DecidableEq, Repr

/-- The word that reports use for a kind of issue. -/
def Issue.Kind.name : Issue.Kind → String
  | .missing => "missing"
  | .extraForbidden => "extra_forbidden"
  | .stringType => "string_type"
  | .stringTooShort => "string_too_short"
  | .listType => "list_type"
  | .tupleType => "tuple_type"
  | .dictType => "dict_type"
  | .modelType => "model_type"
  | .modelAttributesType => "model_attributes_type"
  | .literalError => "literal_error"
  | .callableType => "callable_type"
  | .greaterThanEqual => "greater_than_equal"
  | .frozenInstance => "frozen_instance"
  | .boolType => "bool_type"
  | .boolParsing => "bool_parsing"
  | .intType => "int_type"
  | .intParsing => "int_parsing"
  | .intParsingSize => "int_parsing_size"
  | .intFromFloat => "int_from_float"
  | .finiteNumber => "finite_number"
  | .unionTagNotFound => "union_tag_not_found"
  | .unionTagInvalid => "union_tag_invalid"
  | .jsonInvalid => "json_invalid"

/-- One step on the way to a piece of data. -/
inductive Place
  | field (name : String)
  | item (index : Nat)
  deriving DecidableEq, Repr

/-- Something wrong at a place. -/
structure Issue where
  kind : Issue.Kind
  place : List Place := []
  deriving DecidableEq, Repr

/-- An issue as it is reported. -/
def Issue.toJson (i : Issue) : Json :=
  .obj [("type", .str i.kind.name),
    ("loc", .arr (i.place.map fun
      | .field name => .str name
      | .item index => .int index))]

/-- A value, or everything that is wrong with the data it was to be read from. -/
abbrev Checked (α : Type) := Except (List Issue) α

namespace Checked

variable {α β : Type}

/-- A check that passes. -/
def pass (a : α) : Checked α := .ok a

/-- One issue, here. -/
def refuse (kind : Issue.Kind) : Checked α := .error [{ kind }]

/-- The same check of what stands at a place. -/
def within (p : Place) (c : Checked α) : Checked α :=
  c.mapError (List.map fun i => { i with place := p :: i.place })

/-- What has been checked does not change: giving a field another value is an issue. -/
def frozen (field : String) : Checked α := within (.field field) (refuse .frozenInstance)

/-- Both checks, with the issues of both. -/
def ap (f : Checked (α → β)) (c : Checked α) : Checked β :=
  match f, c with
  | .ok f, .ok a => .ok (f a)
  | .ok _, .error es => .error es
  | .error es, .ok _ => .error es
  | .error es, .error es' => .error (es ++ es')

/-- A check that passes unless there are issues. -/
def noIssues (issues : List Issue) (a : α) : Checked α :=
  if issues.isEmpty then .ok a else .error issues

/-- Checks every item at its index, from `start` on, with the issues of all. -/
def eachFrom (read : Json → Checked α) : Nat → List Json → Checked (List α)
  | _, [] => .ok []
  | start, v :: vs =>
    ((pass List.cons).ap (within (.item start) (read v))).ap (eachFrom read (start + 1) vs)

/-- Checks every member at its name, with the issues of all. -/
def eachEntry (read : Json → Checked α) : List (String × Json) → Checked (List (String × α))
  | [] => .ok []
  | (k, v) :: es =>
    ((pass fun a rest => (k, a) :: rest).ap (within (.field k) (read v))).ap (eachEntry read es)

theorem ap_eq_ok_iff {f : Checked (α → β)} {c : Checked α} {b : β} :
    f.ap c = .ok b ↔ ∃ g a, f = .ok g ∧ c = .ok a ∧ g a = b := by
  cases f <;> cases c <;> simp [ap]

@[simp] theorem ap_ok_ok (f : α → β) (a : α) :
    Checked.ap (.ok f) (.ok a) = .ok (f a) := rfl

@[simp] theorem within_ok (p : Place) (a : α) : within p (.ok a) = .ok a := rfl

theorem within_eq_ok_iff {p : Place} {c : Checked α} {a : α} :
    within p c = .ok a ↔ c = .ok a := by
  cases c with
  | error issues => exact iff_of_false (fun h => by cases h) fun h => by cases h
  | ok b => exact Iff.rfl

end Checked

end DemandPlan
