import DemandPlan.Text.Hex
import DemandPlan.Text.Printable

/-!
# Quoted names

Messages show a list of names as `['a', "it's"]`: every name in quotes, with a backslash before
whatever could be misread. Single quotes are used, except around a name that holds a single quote
and no double quote.

* `Text.escape_of_isPrintable`: a printable character that is neither backslash nor the quote in
  use stands for itself.
-/

namespace DemandPlan.Text

/-- The quote that surrounds a name. -/
def quoteFor (name : List Char) : Char :=
  if name.contains '\'' && !name.contains '"' then '"' else '\''

/-- A character inside quotes `q`. Line feed, carriage return and tab have letters of their own;
any other character that is not printable is given by its code point, with two, four or eight
digits. -/
def escape (q c : Char) : List Char :=
  if c = q ∨ c = '\\' then ['\\', c]
  else if c = '\n' then ['\\', 'n']
  else if c = '\r' then ['\\', 'r']
  else if c = '\t' then ['\\', 't']
  else if isPrintable c then [c]
  else if c.toNat < 0x100 then '\\' :: 'x' :: Hex.digits 2 c.toNat
  else if c.toNat < 0x10000 then '\\' :: 'u' :: Hex.digits 4 c.toNat
  else '\\' :: 'U' :: Hex.digits 8 c.toNat

/-- A name in quotes. -/
def quoted (name : String) : String :=
  let q := quoteFor name.toList
  String.ofList (q :: name.toList.flatMap (escape q) ++ [q])

/-- A list of names: each in quotes, between brackets. -/
def quotedList (names : List String) : String :=
  "[" ++ ", ".intercalate (names.map quoted) ++ "]"

theorem escape_of_isPrintable {q c : Char} (h : isPrintable c) (hq : c ≠ q) (hb : c ≠ '\\') :
    escape q c = [c] := by
  have hn : c ≠ '\n' := by rintro rfl; revert h; decide
  have hr : c ≠ '\r' := by rintro rfl; revert h; decide
  have ht : c ≠ '\t' := by rintro rfl; revert h; decide
  simp [escape, h, hq, hb, hn, hr, ht]

end DemandPlan.Text
