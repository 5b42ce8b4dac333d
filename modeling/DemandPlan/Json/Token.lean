import DemandPlan.Json.Basic
import DemandPlan.Text.Hex

/-!
# JSON tokens

A JSON text is read in two stages: `Token.lex` cuts it into tokens and drops the blanks between
them, and `Json.ofTokens?` builds the value. A word (a numeral or a name such as `null`) extends as
far as no blank, quote or punctuation mark follows, so whatever cannot be one word is refused.

Refused are also control characters inside a string, unknown escapes and halves of a surrogate
pair that stand alone.
-/

namespace DemandPlan.Json

open Text

/-- The pieces that a JSON text consists of. -/
inductive Token
  | openArr
  | closeArr
  | openObj
  | closeObj
  | comma
  | colon
  | str (s : String)
  /-- A value written as one word. -/
  | atom (v : Json)
  deriving Inhabited

namespace Token

/-- The blanks that may stand between tokens. -/
def isBlank (c : Char) : Bool := c = ' ' || c = '\t' || c = '\n' || c = '\r'

/-- The token that a punctuation mark is. -/
def ofMark? : Char → Option Token
  | '[' => some openArr
  | ']' => some closeArr
  | '\x7b' => some openObj
  | '\x7d' => some closeObj
  | ',' => some comma
  | ':' => some colon
  | _ => none

/-- Whether a word goes on with this character. -/
def isWordChar (c : Char) : Bool := !isBlank c && (ofMark? c).isNone && c ≠ '"'

/-! ## Words -/

/-- The value of a row of digits, if there is one. -/
def digits? (cs : List Char) : Option Nat :=
  if cs.isEmpty || !cs.all Char.isDigit then none else some (Nat.ofDigitChars 10 cs 0)

/-- An exponent: a sign, which may be absent, and digits. -/
def exponent? : List Char → Option Int
  | '-' :: ds => (digits? ds).map fun n => -(n : Int)
  | '+' :: ds => (digits? ds).map fun n => (n : Int)
  | ds => (digits? ds).map fun n => (n : Int)

/-- Splits the part of a numeral after its whole part into the digits of the fraction and the
exponent. Without either the numeral is a whole number. -/
def fraction? : List Char → Option (List Char × Int)
  | '.' :: cs =>
    let ds := cs.takeWhile Char.isDigit
    if ds.isEmpty then none
    else match cs.dropWhile Char.isDigit with
      | [] => some (ds, 0)
      | e :: rest => if e = 'e' ∨ e = 'E' then (exponent? rest).map (ds, ·) else none
  | e :: rest => if e = 'e' ∨ e = 'E' then (exponent? rest).map ([], ·) else none
  | [] => some ([], 0)

/-- How long the whole part of a numeral may be, a minus sign included. -/
def maxWhole : Nat := 4300

/-- Whether the whole part of a numeral is too long. -/
def isTooLong (negative : Bool) (whole : List Char) : Bool :=
  maxWhole < whole.length + negative.toNat

/-- Whether a whole part has a leading zero that is not all of it. -/
def hasLeadingZero (whole : List Char) : Bool := whole.head? = some '0' && 1 < whole.length

/-- A numeral without its sign. The whole part is not too long and has no leading zero. -/
def unsigned? (negative : Bool) (cs : List Char) : Option Json :=
  let whole := cs.takeWhile Char.isDigit
  let rest := cs.dropWhile Char.isDigit
  let signed (n : Nat) : Int := if negative then -(n : Int) else n
  if whole.isEmpty || hasLeadingZero whole || isTooLong negative whole then none
  else if rest.isEmpty then some (.int (signed (Nat.ofDigitChars 10 whole 0)))
  else do
    let (fraction, exponent) ← fraction? rest
    return .decimal ⟨signed (Nat.ofDigitChars 10 (whole ++ fraction) 0), exponent - fraction.length⟩

/-- The value that a word stands for. -/
def word? (cs : List Char) : Option Json :=
  match String.ofList cs with
  | "null" => some .null
  | "true" => some (.bool true)
  | "false" => some (.bool false)
  | "NaN" => some (.nonFinite .nan)
  | "Infinity" => some (.nonFinite .infinity)
  | "-Infinity" => some (.nonFinite .negativeInfinity)
  | _ =>
    match cs with
    | '-' :: digits => unsigned? true digits
    | digits => unsigned? false digits

/-! ## Strings -/

/-- The character that follows a backslash, for the escapes of two characters. -/
def shortEscape? : Char → Option Char
  | '"' => some '"'
  | '\\' => some '\\'
  | '/' => some '/'
  | 'b' => some '\x08'
  | 'f' => some '\x0c'
  | 'n' => some '\n'
  | 'r' => some '\r'
  | 't' => some '\t'
  | _ => none

/-- Whether a code unit is the first half of a surrogate pair. -/
def isHighSurrogate (n : Nat) : Bool := 0xD800 ≤ n && n < 0xDC00

/-- Whether a code unit is the second half of a surrogate pair. -/
def isLowSurrogate (n : Nat) : Bool := 0xDC00 ≤ n && n < 0xE000

/-- The character of a surrogate pair. -/
def ofSurrogates (high low : Nat) : Char :=
  Char.ofNat (0x10000 + (high - 0xD800) * 0x400 + (low - 0xDC00))

/-- Puts a character in front of what was read after it. -/
def push (c : Char) : Option (List Char × List Char) → Option (List Char × List Char) :=
  Option.map fun p => (c :: p.1, p.2)

/-- Reads a string after its opening quote: its characters, and the text after its closing one. -/
def string? : List Char → Option (List Char × List Char)
  | [] => none
  | '"' :: rest => some ([], rest)
  | '\\' :: 'u' :: a :: b :: c :: d :: rest =>
    match Hex.value [a, b, c, d] with
    | none => none
    | some n =>
      if isHighSurrogate n then
        match rest with
        | '\\' :: 'u' :: a' :: b' :: c' :: d' :: rest' =>
          match Hex.value [a', b', c', d'] with
          | none => none
          | some m => if isLowSurrogate m then push (ofSurrogates n m) (string? rest') else none
        | _ => none
      else if isLowSurrogate n then none
      else push (Char.ofNat n) (string? rest)
  | '\\' :: e :: rest =>
    match shortEscape? e with
    | none => none
    | some c => push c (string? rest)
  | c :: rest => if c.toNat < 0x20 ∨ c = '\\' then none else push c (string? rest)

theorem length_of_push {c : Char} {r : Option (List Char × List Char)} {cs rest : List Char} {n : Nat}
    (ih : ∀ {cs}, r = some (cs, rest) → rest.length < n) (h : push c r = some (cs, rest)) :
    rest.length < n := by
  obtain ⟨⟨a, b⟩, hr, he⟩ := Option.map_eq_some_iff.1 h
  cases he
  exact ih hr

theorem length_of_string? {s cs rest : List Char} (h : string? s = some (cs, rest)) :
    rest.length < s.length := by
  fun_induction string? s generalizing cs
  case case2 => cases h; exact Nat.lt_succ_self _
  all_goals try exact absurd h (by simp)
  all_goals
    rename_i ih
    have := length_of_push ih h
    simp only [List.length_cons]
    omega

/-! ## The whole text -/

/-- Cuts a text into tokens. -/
def lex (text : List Char) : Option (List Token) :=
  match text with
  | [] => some []
  | c :: cs =>
    if isBlank c then lex cs
    else match ofMark? c with
      | some t => (lex cs).map (t :: ·)
      | none =>
        if c = '"' then
          match h : string? cs with
          | none => none
          | some (s, rest) =>
            have : rest.length < cs.length := length_of_string? h
            (lex rest).map (str (String.ofList s) :: ·)
        else
          match word? (c :: cs.takeWhile isWordChar) with
          | none => none
          | some v => (lex (cs.dropWhile isWordChar)).map (atom v :: ·)
termination_by text.length
decreasing_by
  all_goals simp only [List.length_cons]
  · omega
  · omega
  · omega
  · exact Nat.lt_succ_of_le (List.dropWhile_suffix _).length_le

end Token

end DemandPlan.Json
