/-!
# Decimal numbers

A number written with a fraction or an exponent stands for the binary64 number nearest to it, and
a reader that wants a whole number takes it if that nearest number is whole. `Decimal.nearest`
answers the question in exact arithmetic.

* `roundEven_mul`: a quotient that is exact is not changed by rounding.
-/

namespace DemandPlan

/-- The number `significand · 10 ^ exponent`. -/
structure Decimal where
  significand : Int
  exponent : Int
  deriving DecidableEq, Repr

/-- What the nearest binary64 number is like. -/
inductive Nearest
  | whole (n : Int)
  | fractional
  /-- Beyond the largest finite number. -/
  | overflow
  deriving DecidableEq, Repr

namespace Decimal

/-- The whole number nearest to `num / den`; a half goes to the even neighbour. -/
def roundEven (num den : Nat) : Nat :=
  let q := num / den
  let r := num % den
  if den < 2 * r ∨ (den = 2 * r ∧ q % 2 = 1) then q + 1 else q

theorem roundEven_mul {q den : Nat} (h : 0 < den) : roundEven (q * den) den = q := by
  simp only [roundEven, Nat.mul_div_cancel _ h, Nat.mul_mod_left]
  rw [if_neg (by omega)]

/-- The binary64 number nearest to `num / den`. Below `1 / 2` the only whole number near enough is
zero, and it is reached up to half the smallest positive number. From there to `2 ^ 53` neighbours
are `2 ^ (b - 52)` apart, with `b` the exponent of the leading bit; beyond, all are whole. -/
def nearestNat (num den : Nat) : Nearest :=
  let floor := num / den
  if Nat.pow 2 53 ≤ floor then
    let unit := Nat.pow 2 (floor.log2 - 52)
    let n := roundEven num (den * unit) * unit
    if n < Nat.pow 2 1024 then .whole n else .overflow
  else if 2 * num < den then
    if num * Nat.pow 2 1075 ≤ den then .whole 0 else .fractional
  else
    let scale := if floor = 0 then Nat.pow 2 53 else Nat.pow 2 (52 - floor.log2)
    let n := roundEven (num * scale) den
    if n % scale = 0 then .whole (n / scale : Nat) else .fractional

/-- The place before the first digit, as an exponent: the number is less than this power of ten. -/
def magnitude (d : Decimal) : Int := (Nat.toDigits 10 d.significand.natAbs).length + d.exponent

/-- What the binary64 number nearest to the absolute value is like. Far outside the range of
binary64 the count of digits decides, so that no huge power is formed. -/
def nearestAbs (d : Decimal) : Nearest :=
  if d.significand = 0 ∨ d.magnitude < -330 then .whole 0
  else if 310 < d.magnitude then .overflow
  else
    nearestNat (d.significand.natAbs * Nat.pow 10 d.exponent.toNat)
      (Nat.pow 10 (-d.exponent).toNat)

/-- What the binary64 number nearest to a decimal is like. -/
def nearest (d : Decimal) : Nearest :=
  match d.nearestAbs with
  | .whole n => .whole (if d.significand < 0 then -n else n)
  | other => other

end Decimal

end DemandPlan
