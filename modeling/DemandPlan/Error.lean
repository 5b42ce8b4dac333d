import DemandPlan.Names
import DemandPlan.Text.Quoted
import DemandPlan.Validation.Issue

/-!
# Errors

An `Error` is a cause, with the names that are involved. `Error.report` turns it into what a caller
is shown: a kind, a message, and the names once more as data.

The kinds form a small tree (`Report.Kind.lineage`): whoever handles configuration errors also
handles duplicates and cycles.
-/

namespace DemandPlan

/-- The kinds of errors that are reported. -/
inductive Report.Kind
  | general
  | configuration
  | duplicateOperation
  | operationNotFound
  | cycle
  | missingArguments
  | missingInput
  | linkage
  | planFormat
  deriving DecidableEq, Repr

/-- The word for a kind of error. -/
def Report.Kind.name : Report.Kind → String
  | .general => "KalcError"
  | .configuration => "ConfigurationError"
  | .duplicateOperation => "DuplicateOperationError"
  | .operationNotFound => "OperationNotFoundError"
  | .cycle => "CycleError"
  | .missingArguments => "MissingArgumentsError"
  | .missingInput => "MissingInputError"
  | .linkage => "LinkageError"
  | .planFormat => "PlanFormatError"

/-- All kinds. -/
def Report.Kind.all : List Report.Kind :=
  [.general, .configuration, .duplicateOperation, .operationNotFound, .cycle, .missingArguments,
   .missingInput, .linkage, .planFormat]

/-- The kind that a word stands for. -/
def Report.Kind.ofName? (name : String) : Option Report.Kind :=
  Report.Kind.all.find? fun k => k.name = name

/-- The words under which an error of a kind can be handled, the narrowest first. A look-up that
finds nothing is also a failed look-up by key. -/
def Report.Kind.lineage (kind : Report.Kind) : List String :=
  kind.name :: match kind with
    | .general => []
    | .configuration | .missingArguments | .missingInput | .linkage | .planFormat =>
      [Kind.general.name]
    | .duplicateOperation | .cycle => [Kind.configuration.name, Kind.general.name]
    | .operationNotFound => [Kind.general.name, "KeyError", "LookupError"]

/-- What a caller is shown of an error. -/
structure Report where
  kind : Report.Kind
  message : String
  details : List (String × Json) := []

/-- Why a request cannot be answered. -/
inductive Error
  /-- An output is registered already, and overriding is not allowed. -/
  | duplicateOperation (output : String)
  /-- No operation has this output. -/
  | operationNotFound (output : String) (available : List String)
  /-- Operations need each other's outputs. -/
  | cycle (outputs : List String)
  /-- A synchronous evaluation has reached an asynchronous operation. -/
  | asynchronousOperation (output : String)
  /-- A plan is run without all of its parameters. -/
  | missingArguments (missing blocked : List String)
  /-- An evaluation has reached a name that nobody supplies. -/
  | missingInput (requested missing : String)
  /-- A plan record does not fit the registered operations. -/
  | linkage (missing mismatched : List String)
  /-- Data that is no plan record. -/
  | invalidRecord (issues : List Issue)
  /-- A plan record of another version. -/
  | unsupportedVersion (version : Int)
  /-- A synchronous plan record with asynchronous steps. -/
  | asynchronousSteps
  /-- A plan record that calls slots without formula. -/
  | slotsWithoutFormula (slots : List String)
  deriving DecidableEq, Repr

namespace Error

/-- A cycle among operations, named in ascending order. -/
def cycleAmong (outputs : List String) : Error := .cycle (Names.sorted outputs)

/-- A record that does not fit: the outputs without operation and those whose operation has another
shape, each in ascending order. -/
def unlinkable (missing mismatched : List String) : Error :=
  .linkage (Names.sorted missing) (Names.sorted mismatched)

/-- The version of plan records that can be read. -/
def supportedVersion : Int := 1

/-- The parts of a linkage message, one for each list that is not empty. -/
def linkageProblems (missing mismatched : List String) : List String :=
  (if missing.isEmpty then []
    else ["no operation registered for [" ++ Names.joined missing ++ "]"]) ++
  (if mismatched.isEmpty then []
    else ["operation shape changed for [" ++ Names.joined mismatched ++ "]"])

/-- What a caller is shown. -/
def report : Error → Report
  | duplicateOperation output =>
    { kind := .duplicateOperation
      message := "Operation '" ++ output ++ "' already registered. Use override=True to replace."
      details := [("output", .str output)] }
  | operationNotFound output available =>
    { kind := .operationNotFound
      message := "Operation '" ++ output ++ "' not registered. Available: " ++
        Text.quotedList available
      details := [("output", .str output), ("available", .ofNames available)] }
  | cycle outputs =>
    { kind := .cycle
      message := "Dependency cycle among operations [" ++ Names.joined outputs ++ "]"
      details := [("outputs", .ofNames outputs)] }
  | asynchronousOperation output =>
    { kind := .configuration
      message := "Operation '" ++ output ++ "' is asynchronous; use ainterpret()"
      details := [("output", .str output)] }
  | missingArguments missing blocked =>
    { kind := .missingArguments
      message := "Missing arguments: Calculating [" ++ Names.joined blocked ++ "] requires [" ++
        Names.joined missing ++ "] as input"
      details := [("missing", .ofNames missing), ("blocked", .ofNames blocked)] }
  | missingInput requested missing =>
    { kind := .missingInput
      message := "Cannot calculate [" ++ requested ++ "]; missing required input [" ++ missing ++
        "]."
      details := [("requested", .str requested), ("missing", .str missing)] }
  | linkage missing mismatched =>
    { kind := .linkage
      message := "Cannot link plan: " ++ "; ".intercalate (linkageProblems missing mismatched)
      details := [("missing", .ofNames missing), ("mismatched", .ofNames mismatched)] }
  | invalidRecord issues =>
    { kind := .planFormat
      message := "Invalid plan record: " ++ toString issues.length ++ " validation error(s)"
      details := [("errors", .arr (issues.map Issue.toJson))] }
  | unsupportedVersion version =>
    { kind := .planFormat
      message := "Unsupported plan record version " ++ toString version
      details := [("version", .int version), ("supported", .arr [.int supportedVersion])] }
  | asynchronousSteps =>
    { kind := .planFormat
      message := "Synchronous plan record contains asynchronous steps" }
  | slotsWithoutFormula slots =>
    { kind := .planFormat
      message := "Plan record calls slots with no formula: [" ++ Names.joined slots ++ "]"
      details := [("slots", .ofNames slots)] }

/-- What is wrong, in words. -/
def message (e : Error) : String := e.report.message

end Error

end DemandPlan
