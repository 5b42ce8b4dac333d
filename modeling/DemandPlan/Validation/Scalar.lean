import DemandPlan.Json.Token
import DemandPlan.Text.Blank
import DemandPlan.Validation.Issue

/-!
# Reading scalars

Names have to be strings. Booleans and whole numbers are also read from the other spellings that
configuration files use: numbers for booleans, and texts for both.

A whole number in a text may have blanks around it, a sign, leading zeros, single underscores
between digits and a fraction of zeros only. `WholeNumber.ofText?` takes these off one after the
other, and what is left has to be a JSON numeral; leading zeros may stand before its minus sign. A
number that is given as a decimal has to fit into 64 bits.
-/

namespace DemandPlan

open Text

namespace WholeNumber

/-- Whether there is a minus sign in front, and what follows the sign. -/
def splitSign : List Char → Bool × List Char
  | '-' :: cs => (true, cs)
  | '+' :: cs => (false, cs)
  | cs => (false, cs)

/-- What follows a zero, `last` being the character before it: further zeros and underscores are
passed over up to the first other digit or a minus sign. Of zeros alone, and before a point, one
character is kept. -/
def afterZero? (last : Char) : List Char → Option (List Char)
  | [] => some [last]
  | '0' :: cs => afterZero? '0' cs
  | '_' :: cs => afterZero? '_' cs
  | '.' :: cs => some (last :: '.' :: cs)
  | c :: cs => if c.isDigit ∨ c = '-' then some (c :: cs) else none

/-- Without leading zeros. What does not start with a digit is no number. -/
def dropZeros? : List Char → Option (List Char)
  | '0' :: cs => afterZero? '0' cs
  | c :: cs => if c.isDigit then some (c :: cs) else none
  | [] => none

/-- Without a point that one zero or more follow, and nothing else. -/
def dropFraction (cs : List Char) : List Char :=
  match cs.dropWhile (· ≠ '.') with
  | '.' :: '0' :: zeros => if zeros.all (· = '0') then cs.takeWhile (· ≠ '.') else cs
  | _ => cs

/-- Whether two underscores stand side by side. -/
def hasDoubleUnderscore : List Char → Bool
  | '_' :: '_' :: _ => true
  | _ :: cs => hasDoubleUnderscore cs
  | [] => false

/-- Without underscores, if each of them stands alone and inside. -/
def dropUnderscores (cs : List Char) : List Char :=
  if cs.head? = some '_' ∨ cs.getLast? = some '_' ∨ hasDoubleUnderscore cs then cs
  else cs.filter (· ≠ '_')

/-- A JSON numeral without fraction and exponent. -/
def ofNumeral? (cs : List Char) : Option Int :=
  match Json.Token.word? cs with
  | some (.int n) => some n
  | _ => none

/-- The whole number that a text stands for, once all that may surround its digits is taken off. -/
def ofText? (s : String) : Option Int := do
  let (negative, cs) := splitSign (trim isWhiteSpace s.toList)
  let numeral := dropUnderscores (dropFraction (← dropZeros? cs))
  ofNumeral? (if negative then '-' :: numeral else numeral)

/-- Whether a text starts as a numeral whose whole part is too long. -/
def startsTooLong (cs : List Char) : Bool :=
  let negative := cs.head? = some '-'
  let whole := (if negative then cs.tail else cs).takeWhile Char.isDigit
  !Json.Token.hasLeadingZero whole && Json.Token.isTooLong negative whole

/-- The whole number that a text stands for. A text that is too long as it stands, with nothing taken
off, is an issue of its own. -/
def ofText (s : String) : Checked Int :=
  if startsTooLong s.toList then .refuse .intParsingSize
  else match ofText? s with
    | some n => .ok n
    | none => .refuse .intParsing

end WholeNumber

/-- The words for true. -/
def trueWords : List String := ["1", "on", "t", "true", "y", "yes"]

/-- The words for false. -/
def falseWords : List String := ["0", "off", "f", "false", "n", "no"]

/-- Where data comes from: a JSON text or a value at hand. -/
inductive Origin
  | text
  | value
  deriving DecidableEq, Repr

/-- Whether a whole number from there can be compared with a boolean: it has at most eighteen digits
in a text, and fits into 64 bits in a value. -/
def Origin.isSmall : Origin → Int → Bool
  | .text, n => n.natAbs < Nat.pow 10 18
  | .value, n => -Int.pow 2 63 ≤ n && n < Int.pow 2 63

namespace Json

/-- A string. -/
def asString : Json → Checked String
  | .str s => .ok s
  | _ => .refuse .stringType

/-- The boolean that a whole number stands for. -/
def boolOfInt (n : Int) : Checked Bool :=
  if n = 1 then .ok true else if n = 0 then .ok false else .refuse .boolParsing

/-- A boolean: also zero and one, and the usual words, whose case does not matter. Another number
is a misspelt boolean if it is whole and small, and of another type if not. -/
def asBool (origin : Origin) : Json → Checked Bool
  | .bool b => .ok b
  | .int n => if origin.isSmall n then boolOfInt n else .refuse .boolType
  | .decimal d =>
    match d.nearest with
    | .whole n => if n.natAbs < Nat.pow 2 63 then boolOfInt n else .refuse .boolType
    | _ => .refuse .boolType
  | .str s =>
    let word := s.map Char.toLower
    if trueWords.contains word then .ok true
    else if falseWords.contains word then .ok false
    else .refuse .boolParsing
  | _ => .refuse .boolType

/-- A whole number: also a decimal number without fractional part, a boolean and a text. -/
def asInt : Json → Checked Int
  | .int n => .ok n
  | .bool b => .ok (if b then 1 else 0)
  | .decimal d =>
    match d.nearest with
    | .whole n => if n.natAbs < Nat.pow 2 63 then .ok n else .refuse .intParsingSize
    | .fractional => .refuse .intFromFloat
    | .overflow => .refuse .finiteNumber
  | .nonFinite _ => .refuse .finiteNumber
  | .str s => WholeNumber.ofText s
  | _ => .refuse .intType

end Json

end DemandPlan
