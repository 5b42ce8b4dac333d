import DemandPlan.Validation.Issue

/-!
# Reading fields

Sequences and tables are read item by item, objects field by field. A field that is absent either
has a default or is itself an issue; a field that nobody knows is an issue where the object says
so. A name may be repeated: then its last value counts, but each unknown field is an issue of its own,
and each value of a table is read.
-/

namespace DemandPlan

namespace Json

variable {α : Type}

/-- A sequence, each item read by `read`. Data that is no array is refused as `kind`. -/
def asSequence (kind : Issue.Kind) (read : Json → Checked α) : Json → Checked (List α)
  | .arr items => Checked.eachFrom read 0 items
  | _ => .refuse kind

/-- A table, each value read by `read`, those of a repeated name too. -/
def asTable (read : Json → Checked α) : Json → Checked (Table α)
  | .obj members => (Checked.eachEntry read members).map Table.ofList
  | _ => .refuse .dictType

end Json

/-- The members of an object that is read field by field. -/
structure Fields where
  members : List (String × Json)

namespace Fields

variable {α : Type}

/-- The value of a field. Of a repeated name the last value counts. -/
def find? (fs : Fields) (name : String) : Option Json := fs.members.reverse.lookup name

/-- A field that has to be there. -/
def required (fs : Fields) (name : String) (read : Json → Checked α) : Checked α :=
  Checked.within (.field name) <|
    match fs.find? name with
    | some v => read v
    | none => .refuse .missing

/-- A field that has a default. -/
def optional (fs : Fields) (name : String) (default : α) (read : Json → Checked α) : Checked α :=
  match fs.find? name with
  | some v => Checked.within (.field name) (read v)
  | none => .ok default

/-- The fields that are not among the known ones, each an issue as often as it stands there. -/
def extras (fs : Fields) (known : List String) : List Issue :=
  (fs.members.filter fun m => !known.contains m.1).map fun m =>
    { kind := .extraForbidden, place := [.field m.1] }

/-- A check that also refuses the fields that are not among the known ones. -/
def forbidExtras (fs : Fields) (known : List String) (c : Checked α) : Checked α :=
  ((Checked.pass fun a (_ : Unit) => a).ap c).ap (Checked.noIssues (fs.extras known) ())

end Fields

end DemandPlan
