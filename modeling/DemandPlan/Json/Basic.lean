import DemandPlan.Json.Decimal
import DemandPlan.Table

/-!
# JSON values

Whole numbers have any size. The members of an object are kept as they were written, with their
order and their repetitions; `Json.table` reads them as a table, in which the last value of a
repeated name counts and its first place.
-/

namespace DemandPlan

/-- The three numbers that JSON has no numeral for. -/
inductive NonFinite
  | nan
  | infinity
  | negativeInfinity
  deriving DecidableEq, Repr

/-- A JSON value. A number is `int` if it was written without fraction and exponent. -/
inductive Json
  | null
  | bool (b : Bool)
  | int (n : Int)
  | decimal (d : Decimal)
  | nonFinite (x : NonFinite)
  | str (s : String)
  | arr (items : List Json)
  | obj (members : List (String × Json))
  deriving Inhabited

namespace Json

/-- The members of an object as a table. -/
def table (members : List (String × Json)) : Table Json := Table.ofList members

/-- An array of strings. -/
def ofNames (names : List String) : Json := .arr (names.map .str)

/-- An object whose members are strings. -/
def ofTable (t : Table String) : Json := .obj (t.toList.map fun e => (e.1, .str e.2))

end Json

end DemandPlan
