/-!
# Hexadecimal digits

* `Hex.value?_digit`: a written digit reads back.
* `Hex.value_digits`: so does a number written with enough digits.
-/

namespace DemandPlan.Text.Hex

/-- The lower-case digit of a number below sixteen. -/
def digit (n : Nat) : Char :=
  if n < 10 then Char.ofNat (48 + n) else Char.ofNat (87 + n)

/-- The number that a digit of either case stands for. -/
def value? (c : Char) : Option Nat :=
  let n := c.toNat
  if 48 ≤ n ∧ n ≤ 57 then some (n - 48)
  else if 97 ≤ n ∧ n ≤ 102 then some (n - 87)
  else if 65 ≤ n ∧ n ≤ 70 then some (n - 55)
  else none

/-- The last `width` digits of a number, the most significant first. -/
def digits : Nat → Nat → List Char
  | 0, _ => []
  | width + 1, n => digits width (n / 16) ++ [digit (n % 16)]

/-- The number that a row of digits stands for, if they all are digits. -/
def value (cs : List Char) : Option Nat :=
  cs.foldl (fun n c => do return 16 * (← n) + (← value? c)) (some 0)

theorem value?_digit {n : Nat} (h : n < 16) : value? (digit n) = some n := by
  have : ∀ n < 16, value? (digit n) = some n := by decide
  exact this n h

theorem value_digits {width n : Nat} (h : n < Nat.pow 16 width) :
    value (digits width n) = some n := by
  induction width generalizing n with
  | zero =>
    obtain rfl : n = 0 := Nat.lt_one_iff.1 h
    rfl
  | succ width ih =>
    have hq : n / 16 < Nat.pow 16 width := by
      rw [Nat.div_lt_iff_lt_mul (by decide)]
      exact h
    have := ih hq
    unfold value at this ⊢
    rw [digits, List.foldl_append, this]
    simp only [List.foldl_cons, List.foldl_nil, value?_digit (Nat.mod_lt n (by decide)),
      Option.pure_def, Option.bind_eq_bind, Option.bind_some]
    rw [Nat.div_add_mod]

end DemandPlan.Text.Hex
