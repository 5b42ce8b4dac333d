import DemandPlan.Json.Token

/-!
# Reading JSON

The reader walks along the tokens once. What is still open (the arrays and objects around the
place it has reached) stands on a stack, so the walk is a recursion on the tokens alone.

* `Json.parse?`: a text is one value with nothing but blanks around it. No byte order mark, no
  trailing comma.
* `Json.ofBytes?`: the same for UTF-8.
-/

namespace DemandPlan.Json

/-- An array or object that is not closed yet, with what it holds so far, the last one first. -/
inductive Frame
  | items (done : List Json)
  /-- The value of `key` comes next. -/
  | members (done : List (String × Json)) (key : String)

mutual

/-- Reads on where a value has to begin. -/
def value? : List Token → List Frame → Option Json
  | .atom v :: ts, stack => after? v ts stack
  | .str s :: ts, stack => after? (.str s) ts stack
  | .openArr :: .closeArr :: ts, stack => after? (.arr []) ts stack
  | .openArr :: ts, stack => value? ts (.items [] :: stack)
  | .openObj :: .closeObj :: ts, stack => after? (.obj []) ts stack
  | .openObj :: .str key :: .colon :: ts, stack => value? ts (.members [] key :: stack)
  | _, _ => none

/-- Reads on after the value `v`. -/
def after? (v : Json) : List Token → List Frame → Option Json
  | [], [] => some v
  | .comma :: ts, .items done :: stack => value? ts (.items (v :: done) :: stack)
  | .closeArr :: ts, .items done :: stack => after? (.arr (v :: done).reverse) ts stack
  | .comma :: .str key :: .colon :: ts, .members done k :: stack =>
    value? ts (.members ((k, v) :: done) key :: stack)
  | .closeObj :: ts, .members done k :: stack => after? (.obj ((k, v) :: done).reverse) ts stack
  | _, _ => none

end

/-- The value that a list of tokens spells. -/
def ofTokens? (ts : List Token) : Option Json := value? ts []

/-- The value that a text spells. -/
def parse? (text : String) : Option Json := (Token.lex text.toList).bind ofTokens?

/-- The value that a text in UTF-8 spells. -/
def ofBytes? (bytes : ByteArray) : Option Json := (String.fromUTF8? bytes).bind parse?

end DemandPlan.Json
