import DemandPlan.Record.Json

/-!
# Loading records

A record comes as text, as data or as a record. It is loaded if its version is known, if it says
that it is asynchronous where a slot is waited for, and if every slot that is called has a formula.
-/

namespace DemandPlan

/-- What a record can be loaded from. -/
inductive Source
  | text (text : String)
  /-- Text in UTF-8. -/
  | bytes (bytes : ByteArray)
  | value (v : Json)
  | record (r : Record)

namespace Record

/-- The slots that are called but have no formula, in ascending order. -/
def slotsWithoutFormula (r : Record) : List String :=
  Names.sorted (r.callShapes.keys.filter fun slot => !r.formulas.values.contains slot)

/-- Whether a record can be used at all, whatever the registry. -/
def check (r : Record) : Except Error Unit :=
  if r.version ≠ Error.supportedVersion then .error (.unsupportedVersion r.version)
  else if !r.isAsync && !r.asyncSlots.isEmpty then .error .asynchronousSteps
  else if r.slotsWithoutFormula.isEmpty then .ok ()
  else .error (.slotsWithoutFormula r.slotsWithoutFormula)

/-- Reads a record from its source. Data that is a string is taken for a text. -/
def read : Source → Checked Record
  | .text text => ofText (Json.parse? text)
  | .bytes bytes => ofText (Json.ofBytes? bytes)
  | .value (.str text) => ofText (Json.parse? text)
  | .value v => ofJson .value v
  | .record r => .ok r

/-- Loads a record. -/
def load (source : Source) : Except Error Record := do
  let r ← (read source).mapError .invalidRecord
  r.check
  return r

end Record

end DemandPlan
