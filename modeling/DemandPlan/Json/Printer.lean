import DemandPlan.Json.Basic
import DemandPlan.Text.Hex

/-!
# Writing JSON

There are two layouts. The compact one has no blanks at all; the indented one puts every item and
every member on a line of its own and a blank after each colon. Empty arrays and objects are
written `[]` and `{}` in both.

In a string, quote, backslash and the control characters below U+0020 are escaped, all else
stands for itself.
-/

namespace DemandPlan.Json

open Text

/-- How a value is spread over lines. -/
inductive Layout
  | compact
  /-- One line for each item, `width` blanks further in for each level. -/
  | indented (width : Nat)
  deriving DecidableEq, Repr

/-- The break before an item at a depth. -/
def Layout.lineBreak (l : Layout) (depth : Nat) : List Char :=
  match l with
  | .compact => []
  | .indented width => '\n' :: List.replicate (width * depth) ' '

/-- What stands between a name and its value. -/
def Layout.colon : Layout → List Char
  | .compact => [':']
  | .indented _ => [':', ' ']

/-- A character inside a string. -/
def escape (c : Char) : List Char :=
  if c = '"' then ['\\', '"']
  else if c = '\\' then ['\\', '\\']
  else if c = '\x08' then ['\\', 'b']
  else if c = '\t' then ['\\', 't']
  else if c = '\n' then ['\\', 'n']
  else if c = '\x0c' then ['\\', 'f']
  else if c = '\r' then ['\\', 'r']
  else if c.toNat < 0x20 then '\\' :: 'u' :: Hex.digits 4 c.toNat
  else [c]

/-- A string in quotes. -/
def writeString (s : String) : List Char := '"' :: s.toList.flatMap escape ++ ['"']

/-- A whole number. -/
def writeInt (n : Int) : List Char :=
  if n < 0 then '-' :: Nat.toDigits 10 n.natAbs else Nat.toDigits 10 n.natAbs

/-- A decimal number, always with an exponent. -/
def writeDecimal (d : Decimal) : List Char := writeInt d.significand ++ 'e' :: writeInt d.exponent

/-- The names of the numbers without numeral. -/
def NonFinite.word : NonFinite → List Char
  | .nan => "NaN".toList
  | .infinity => "Infinity".toList
  | .negativeInfinity => "-Infinity".toList

mutual

/-- A value at a depth. -/
def write (l : Layout) (depth : Nat) : Json → List Char
  | .null => "null".toList
  | .bool true => "true".toList
  | .bool false => "false".toList
  | .int n => writeInt n
  | .decimal d => writeDecimal d
  | .nonFinite x => NonFinite.word x
  | .str s => writeString s
  | .arr [] => ['[', ']']
  | .arr (x :: xs) =>
    '[' :: l.lineBreak (depth + 1) ++ write l (depth + 1) x ++ writeItems l (depth + 1) xs ++
      l.lineBreak depth ++ [']']
  | .obj [] => ['\x7b', '\x7d']
  | .obj ((k, v) :: ms) =>
    '\x7b' :: l.lineBreak (depth + 1) ++ writeString k ++ l.colon ++ write l (depth + 1) v ++
      writeMembers l (depth + 1) ms ++ l.lineBreak depth ++ ['\x7d']

/-- The items of an array after the first one. -/
def writeItems (l : Layout) (depth : Nat) : List Json → List Char
  | [] => []
  | x :: xs => ',' :: l.lineBreak depth ++ write l depth x ++ writeItems l depth xs

/-- The members of an object after the first one. -/
def writeMembers (l : Layout) (depth : Nat) : List (String × Json) → List Char
  | [] => []
  | (k, v) :: ms =>
    ',' :: l.lineBreak depth ++ writeString k ++ l.colon ++ write l depth v ++
      writeMembers l depth ms

end

/-- The text of a value. -/
def render (l : Layout) (v : Json) : String := String.ofList (write l 0 v)

end DemandPlan.Json
