import DemandPlan.Json.Printer
import DemandPlan.Json.Token
import DemandPlan.Text.Blank
import Mathlib.Data.List.TakeWhile

/-!
# Words and strings of a JSON text

What is written for a number or inside the quotes of a string reads back. A numeral reads back
only if its whole part is not too long; strings have no such limit.

* `word?_writeInt`, `word?_writeDecimal`: numerals.
* `string?_flatMap_escape`: strings.
-/

namespace DemandPlan.Json.Token

open Text

/-! ## Numerals -/

theorem head?_toDigits {n : Nat} (h : n ≠ 0) : (Nat.toDigits 10 n).head? ≠ some '0' := by
  induction n using Nat.strongRecOn with
  | _ n ih =>
    rw [Nat.toDigits_eq_if (by decide)]
    split
    · next hlt => simpa using h
    · next hge =>
      rw [List.head?_append, Option.or_of_isSome (by simp)]
      exact ih (n / 10) (by omega) (by omega)

theorem hasLeadingZero_toDigits (n : Nat) : hasLeadingZero (Nat.toDigits 10 n) = false := by
  by_cases h : n = 0
  · subst h
    decide
  · simp [hasLeadingZero, head?_toDigits h]

theorem isDigit_of_mem {n : Nat} {c : Char} (h : c ∈ Nat.toDigits 10 n) : c.isDigit = true :=
  Nat.isDigit_of_mem_toDigits (by decide) (by decide) h

/-- The digits of a number are told apart from what follows them. -/
theorem takeWhile_toDigits (n : Nat) (rest : List Char)
    (h : ∀ c ∈ rest.head?, c.isDigit = false) :
    (Nat.toDigits 10 n ++ rest).takeWhile Char.isDigit = Nat.toDigits 10 n ∧
      (Nat.toDigits 10 n ++ rest).dropWhile Char.isDigit = rest := by
  rw [List.takeWhile_append_of_pos fun c => isDigit_of_mem,
    List.dropWhile_append_of_pos fun c => isDigit_of_mem, takeWhile_eq_nil h, dropWhile_eq_self h,
    List.append_nil]
  exact ⟨rfl, rfl⟩

theorem digits?_toDigits (n : Nat) : digits? (Nat.toDigits 10 n) = some n := by
  have hall : (Nat.toDigits 10 n).all Char.isDigit = true :=
    List.all_eq_true.2 fun c => isDigit_of_mem
  simp [digits?, hall]

theorem exponent?_writeInt (n : Int) : exponent? (writeInt n) = some n := by
  unfold writeInt
  split
  · next h =>
    simp only [exponent?, digits?_toDigits, Option.pure_def, Option.bind_eq_bind, Option.bind_some,
      Option.map_some, Option.some.injEq]
    omega
  · next h =>
    have hdigit := fun c => isDigit_of_mem (n := n.natAbs) (c := c)
    unfold exponent?
    split
    · next he => exact absurd (hdigit '-' (he ▸ List.mem_cons_self)) (by decide)
    · next he => exact absurd (hdigit '+' (he ▸ List.mem_cons_self)) (by decide)
    · simp only [digits?_toDigits, Option.pure_def, Option.bind_eq_bind, Option.bind_some,
        Option.map_some, Option.some.injEq]
      omega

/-- A number whose digits, with the minus sign if it has one, are not too many to be read. -/
def Fits (n : Int) : Prop := isTooLong (n < 0) (Nat.toDigits 10 n.natAbs) = false

theorem signed_natAbs (n : Int) : (if n < 0 then -(n.natAbs : Int) else n.natAbs) = n := by
  split <;> omega

theorem unsigned?_toDigits {n : Int} (h : Fits n) :
    unsigned? (n < 0) (Nat.toDigits 10 n.natAbs) = some (.int n) := by
  obtain ⟨htake, hdrop⟩ := takeWhile_toDigits n.natAbs [] (by simp)
  rw [List.append_nil] at htake hdrop
  have hlong : isTooLong (n < 0) (Nat.toDigits 10 n.natAbs) = false := h
  simp only [unsigned?, htake, hasLeadingZero_toDigits, Bool.or_false, hlong, List.isEmpty_iff,
    Nat.toDigits_ne_nil, ↓reduceIte, hdrop, List.isEmpty_nil, decide_eq_true_eq,
    Nat.ofDigitChars_ten_toDigits, signed_natAbs]

theorem unsigned?_decimal {n : Int} (h : Fits n) (e : Int) :
    unsigned? (n < 0) (Nat.toDigits 10 n.natAbs ++ 'e' :: writeInt e) =
      some (.decimal ⟨n, e⟩) := by
  obtain ⟨htake, hdrop⟩ := takeWhile_toDigits n.natAbs ('e' :: writeInt e)
    fun c hc => by cases hc; rfl
  have hlong : isTooLong (n < 0) (Nat.toDigits 10 n.natAbs) = false := h
  have hfraction : fraction? ('e' :: writeInt e) = some ([], e) := by
    simp [fraction?, exponent?_writeInt]
  simp only [unsigned?, htake, hasLeadingZero_toDigits, Bool.or_false, hlong, List.isEmpty_iff,
    Nat.toDigits_ne_nil, ↓reduceIte, hdrop, List.isEmpty_cons, Bool.false_eq_true, hfraction,
    decide_eq_true_eq, Option.pure_def, Option.bind_eq_bind, Option.bind_some, List.append_nil,
    Nat.ofDigitChars_ten_toDigits, signed_natAbs, List.length_nil, Int.natCast_zero, Int.sub_zero]

/-! ## Words -/

/-- The words for values that are no numbers. -/
theorem word?_names : word? "null".toList = some .null ∧ word? "true".toList = some (.bool true) ∧
    word? "false".toList = some (.bool false) := by
  unfold word?
  simp only [String.ofList_toList, and_self]

theorem word?_nonFinite (x : NonFinite) : word? (NonFinite.word x) = some (.nonFinite x) := by
  unfold word? NonFinite.word
  cases x <;> simp only [String.ofList_toList]

/-- A word that ends with a digit is a numeral or nothing. -/
theorem word?_of_getLast {cs : List Char} {d : Char} (h : cs.getLast? = some d)
    (hd : d.isDigit = true) :
    word? cs = if cs.head? = some '-' then unsigned? true cs.tail else unsigned? false cs := by
  have hne : ∀ word : String, word.toList.getLast?.any Char.isDigit = false →
      String.ofList cs ≠ word := by
    rintro word hw rfl
    rw [String.toList_ofList, h, Option.any_some, hd] at hw
    cases hw
  unfold word?
  split
  · next he => exact absurd he (hne _ (by decide))
  · next he => exact absurd he (hne _ (by decide))
  · next he => exact absurd he (hne _ (by decide))
  · next he => exact absurd he (hne _ (by decide))
  · next he => exact absurd he (hne _ (by decide))
  · next he => exact absurd he (hne _ (by decide))
  · split
    · rfl
    · next hminus =>
      rw [if_neg]
      intro hhead
      obtain ⟨digits, rfl⟩ := List.head?_eq_some_iff.1 hhead
      exact hminus digits rfl

theorem word?_signed {n : Int} {rest : List Char} {d : Char}
    (h : (writeInt n ++ rest).getLast? = some d) (hd : d.isDigit = true) :
    word? (writeInt n ++ rest) = unsigned? (n < 0) (Nat.toDigits 10 n.natAbs ++ rest) := by
  rw [word?_of_getLast h hd]
  by_cases hn : n < 0
  · simp [writeInt, hn]
  · have hhead : (Nat.toDigits 10 n.natAbs ++ rest).head? ≠ some '-' := by
      rw [List.head?_append, Option.or_of_isSome (by simp)]
      intro hminus
      exact absurd (isDigit_of_mem (List.mem_of_head? hminus)) (by decide)
    simp only [writeInt, hn, if_false, decide_false, if_neg hhead]

theorem getLast?_writeInt (cs : List Char) (n : Int) :
    ∃ d, (cs ++ writeInt n).getLast? = some d ∧ d.isDigit = true := by
  obtain ⟨d, hd⟩ := Option.isSome_iff_exists.1
    (List.getLast?_isSome.2 (Nat.toDigits_ne_nil (b := 10) (n := n.natAbs)))
  refine ⟨d, ?_, isDigit_of_mem (List.mem_of_getLast? hd)⟩
  unfold writeInt
  split
  · rw [List.append_cons, List.getLast?_append, hd]
    rfl
  · rw [List.getLast?_append, hd]
    rfl

theorem word?_writeInt {n : Int} (h : Fits n) : word? (writeInt n) = some (.int n) := by
  obtain ⟨d, hlast, hd⟩ := getLast?_writeInt [] n
  have hlast : (writeInt n ++ []).getLast? = some d := by simpa using hlast
  have hword := word?_signed hlast hd
  rwa [List.append_nil, List.append_nil, unsigned?_toDigits h] at hword

theorem word?_writeDecimal {d : Decimal} (h : Fits d.significand) :
    word? (writeDecimal d) = some (.decimal d) := by
  obtain ⟨c, hlast, hc⟩ := getLast?_writeInt (writeInt d.significand ++ ['e']) d.exponent
  rw [List.append_assoc, List.singleton_append] at hlast
  rw [writeDecimal, word?_signed hlast hc, unsigned?_decimal h]

/-! ## Strings -/

theorem string?_cons {c : Char} (h : ¬c.toNat < 0x20) (hq : c ≠ '"') (hb : c ≠ '\\')
    (rest : List Char) : string? (c :: rest) = push c (string? rest) := by
  rw [string?.eq_def]
  split
  case h_5 he =>
    cases he
    rw [if_neg (by simp [h, hb])]
  all_goals simp_all

/-- A character that has been escaped reads back. -/
theorem string?_escape (c : Char) (rest : List Char) :
    string? (escape c ++ rest) = push c (string? rest) := by
  unfold escape
  split
  · next h => subst h; simp [string?, shortEscape?]
  split
  · next h => subst h; simp [string?, shortEscape?]
  split
  · next h => subst h; simp [string?, shortEscape?]
  split
  · next h => subst h; simp [string?, shortEscape?]
  split
  · next h => subst h; simp [string?, shortEscape?]
  split
  · next h => subst h; simp [string?, shortEscape?]
  split
  · next h => subst h; simp [string?, shortEscape?]
  split
  · -- A control character is written as four digits, whose value is no surrogate.
    next h =>
    have hvalue : Hex.value (Hex.digits 4 c.toNat) = some c.toNat :=
      Hex.value_digits (Nat.lt_trans h (by decide))
    have hhigh : isHighSurrogate c.toNat = false := by simp [isHighSurrogate]; omega
    have hlow : isLowSurrogate c.toNat = false := by simp [isLowSurrogate]; omega
    simp only [Hex.digits, List.nil_append, List.cons_append] at hvalue ⊢
    rw [string?]
    simp [hvalue, hhigh, hlow]
  · next hq hb _ _ _ _ _ h =>
    exact string?_cons h hq hb rest

theorem string?_flatMap_escape (s rest : List Char) :
    string? (s.flatMap escape ++ '"' :: rest) = some (s, rest) := by
  induction s with
  | nil => simp [string?]
  | cons c s ih =>
    rw [List.flatMap_cons, List.append_assoc, string?_escape, ih]
    rfl

end DemandPlan.Json.Token
