import DemandPlan.Text.Blank
import DemandPlan.Text.Quoted

/-!
# Assignments

An assignment `a, b -> c` names the inputs of an operation and its output. Only `->` and the comma
have a meaning. Blanks around a name do not belong to it, and a name that is blank all over is no
name. Exactly one name stands after the arrow.
-/

namespace DemandPlan

/-- The inputs of an operation, in the order in which it takes them, and its output. -/
structure Assignment where
  inputs : List String
  output : String
  deriving DecidableEq, Repr

namespace Assignment

/-- What is wrong with an assignment. -/
inductive Fault
  | noArrow (text : String)
  | severalArrows (text : String)
  /-- Not exactly one name stands after the arrow. -/
  | outputs (names : List String) (text : String)
  deriving DecidableEq, Repr

/-- What is wrong, in words. -/
def Fault.message : Fault → String
  | .noArrow text => "Invalid assignment syntax (missing '->'): " ++ text
  | .severalArrows text => "Invalid assignment syntax: " ++ text
  | .outputs names text =>
    "Assignment must name exactly one output, got " ++ Text.quotedList names ++ ": " ++ text

/-- Puts a character in front of the first piece. -/
def extendHead (c : Char) : List (List Char) → List (List Char)
  | [] => [[c]]
  | p :: ps => (c :: p) :: ps

/-- The pieces before, between and after the arrows. -/
def splitArrows : List Char → List (List Char)
  | [] => [[]]
  | '-' :: '>' :: cs => [] :: splitArrows cs
  | c :: cs => extendHead c (splitArrows cs)

/-- The pieces before, between and after the commas. -/
def splitCommas : List Char → List (List Char)
  | [] => [[]]
  | c :: cs => if c = ',' then [] :: splitCommas cs else extendHead c (splitCommas cs)

/-- The names in a piece: what stands between its commas, without blanks around it, if anything is
left of it. -/
def names (piece : List Char) : List String :=
  (((splitCommas piece).map (Text.trim Text.isBlank)).filter (!·.isEmpty)).map String.ofList

/-- Reads an assignment. -/
def parse (text : String) : Except Fault Assignment :=
  match splitArrows text.toList with
  | [left, right] =>
    match names right with
    | [output] => .ok { inputs := names left, output }
    | outputs => .error (.outputs outputs text)
  | [] | [_] => .error (.noArrow text)
  | _ => .error (.severalArrows text)

/-- Writes an assignment. -/
def render (a : Assignment) : String := ", ".intercalate a.inputs ++ " -> " ++ a.output

end Assignment

end DemandPlan
