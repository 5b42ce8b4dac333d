import DemandPlan.Proofs.Token
import DemandPlan.Validation.Scalar

/-!
# Spellings of whole numbers

A text may write a whole number with blanks around it, a sign, leading zeros, single underscores
between its digits and a fraction of zeros. All these spellings are read as the number, as long as
its digits are not too many.

* `WholeNumber.Spelling`: the ways to write a number.
* `WholeNumber.Spelling.ofText?_text`: what is taken off leaves the digits of the number.
* `WholeNumber.Spelling.ofText_text`: a spelled number is accepted.
* `WholeNumber.Spelling.ofText_writeInt`: so is a number as it is printed.
-/

namespace DemandPlan.WholeNumber

open Text Json Json.Token

variable {n : Nat} {cs rest : List Char}

/-! ## Digits -/

/-- The digits of a number, with single underscores between some of them. -/
structure Grouped (n : Nat) (cs : List Char) : Prop where
  digits : cs.filter (· ≠ '_') = Nat.toDigits 10 n
  first : cs.head? ≠ some '_'
  last : cs.getLast? ≠ some '_'
  single : hasDoubleUnderscore cs = false

theorem hasDoubleUnderscore_of_not_mem (h : '_' ∉ cs) : hasDoubleUnderscore cs = false := by
  induction cs with
  | nil => rfl
  | cons c cs ih =>
    obtain ⟨hc, hcs⟩ := not_or.1 (mt List.mem_cons.2 h)
    rw [hasDoubleUnderscore.eq_def]
    split
    · next he => exact absurd (List.cons.inj he).1.symm hc
    · next he => exact (List.cons.inj he).2 ▸ ih hcs
    · rfl

/-- There may be no underscores at all. -/
theorem grouped_toDigits (n : Nat) : Grouped n (Nat.toDigits 10 n) where
  digits := List.filter_eq_self.2 fun c hc => by
    have hne : c ≠ '_' := by
      rintro rfl
      exact Nat.underscore_not_in_toDigits hc
    simpa using hne
  first h := Nat.underscore_not_in_toDigits (List.mem_of_head? h)
  last h := Nat.underscore_not_in_toDigits (List.mem_of_getLast? h)
  single := hasDoubleUnderscore_of_not_mem Nat.underscore_not_in_toDigits

theorem Grouped.dropUnderscores_eq (h : Grouped n cs) :
    dropUnderscores cs = Nat.toDigits 10 n := by
  rw [dropUnderscores, if_neg, h.digits]
  simp [h.first, h.last, h.single]

theorem Grouped.isDigit_of_mem (h : Grouped n cs) {c : Char} (hc : c ∈ cs) :
    c = '_' ∨ c.isDigit = true := by
  by_cases hu : c = '_'
  · exact .inl hu
  · have hmem : c ∈ cs.filter (· ≠ '_') := List.mem_filter.2 ⟨hc, by simpa using hu⟩
    rw [h.digits] at hmem
    exact .inr (Token.isDigit_of_mem hmem)

/-- A group starts with the first digit of its number. -/
theorem Grouped.exists_cons (h : Grouped n cs) :
    ∃ c cs', cs = c :: cs' ∧ c.isDigit = true ∧ (c = '0' → n = 0 ∧ cs' = []) := by
  cases cs with
  | nil => exact absurd h.digits.symm Nat.toDigits_ne_nil
  | cons c cs' =>
    have hc : c ≠ '_' := fun hu => h.first (congrArg some hu)
    have hdigits := h.digits
    rw [List.filter_cons_of_pos (by simpa using hc)] at hdigits
    refine ⟨c, cs', rfl, Token.isDigit_of_mem (hdigits ▸ List.mem_cons_self), fun hzero => ?_⟩
    have hn : n = 0 := by
      by_contra hne
      have := head?_toDigits hne
      rw [← hdigits, hzero] at this
      exact this rfl
    refine ⟨hn, ?_⟩
    subst hn
    -- Nothing but underscores could follow the zero, and the last character is none.
    have hall : ∀ d ∈ cs', d = '_' := by
      have hnil : cs'.filter (· ≠ '_') = [] := (List.cons.inj hdigits).2
      simpa using hnil
    cases hlast : cs'.getLast? with
    | none => exact List.getLast?_eq_none_iff.1 hlast
    | some d =>
      have hd := hall d (List.mem_of_getLast? hlast)
      subst hd
      refine absurd ?_ h.last
      rw [List.getLast?_cons, hlast]
      rfl

/-- A fraction that is nothing: none at all, or zeros. -/
def ZeroFraction (cs : List Char) : Prop :=
  cs = [] ∨ ∃ k, cs = '.' :: List.replicate (k + 1) '0'

theorem afterZero?_replicate {last : Char} (hlast : last = '0') (k : Nat) (rest : List Char) :
    afterZero? last (List.replicate k '0' ++ rest) = afterZero? '0' rest := by
  induction k generalizing last with
  | zero => rw [hlast]; rfl
  | succ k ih => exact ih rfl

/-- Leading zeros are dropped, but for one if the number is zero. -/
theorem dropZeros?_replicate (h : Grouped n cs) (hrest : ZeroFraction rest) (k : Nat) :
    dropZeros? (List.replicate k '0' ++ cs ++ rest) = some (cs ++ rest) := by
  obtain ⟨c, cs', rfl, hc, hzero⟩ := h.exists_cons
  by_cases hc0 : c = '0'
  · obtain ⟨rfl, rfl⟩ := hzero hc0
    subst hc0
    have hzeros : List.replicate k '0' ++ ['0'] ++ rest =
        '0' :: (List.replicate k '0' ++ rest) := by
      rw [← List.replicate_succ', List.replicate_succ, List.cons_append]
    -- The last zero is kept, in front of the point if there is one.
    rw [hzeros, dropZeros?, afterZero?_replicate rfl]
    rcases hrest with rfl | ⟨j, rfl⟩ <;> rfl
  · have hstop : afterZero? '0' (c :: (cs' ++ rest)) = some (c :: (cs' ++ rest)) := by
      rw [afterZero?.eq_def]
      split
      case h_5 he =>
        obtain ⟨rfl, rfl⟩ := List.cons.inj he
        rw [if_pos (.inl hc)]
      all_goals
        next he => cases he <;> contradiction
    cases k with
    | zero =>
      show dropZeros? (c :: (cs' ++ rest)) = some (c :: (cs' ++ rest))
      unfold dropZeros?
      split
      · next he => cases he; contradiction
      · next he =>
        obtain ⟨rfl, rfl⟩ := List.cons.inj he
        exact if_pos hc
      · next he => cases he
    | succ k =>
      rw [List.append_assoc, List.replicate_succ, List.cons_append, dropZeros?,
        afterZero?_replicate rfl]
      exact hstop

theorem dropFraction_append (h : '.' ∉ cs) (hrest : ZeroFraction rest) :
    dropFraction (cs ++ rest) = cs := by
  have hall : ∀ c ∈ cs, decide (c ≠ '.') = true := fun c hc => by
    rw [decide_eq_true_eq]
    rintro rfl
    exact h hc
  rw [dropFraction, List.dropWhile_append_of_pos hall, List.takeWhile_append_of_pos hall]
  rcases hrest with rfl | ⟨k, rfl⟩
  · simp
  · simp [List.replicate_succ]

/-! ## Spellings -/

/-- The signs of a number: a plus sign can be left out. -/
inductive IsSign : Bool → List Char → Prop
  | minus : IsSign true ['-']
  | plus : IsSign false ['+']
  | none : IsSign false []

/-- A number with its sign. -/
def signed (negative : Bool) (n : Nat) : Int := if negative then -n else n

/-- A way to write a whole number: with blanks around it, a sign, zeros in front of its digits, and
a fraction of zeros behind them. -/
structure Spelling (negative : Bool) (n : Nat) where
  before : List Char
  sign : List Char
  zeros : Nat
  digits : List Char
  fraction : List Char
  after : List Char
  blank_before : ∀ c ∈ before, isWhiteSpace c
  isSign : IsSign negative sign
  grouped : Grouped n digits
  zero_fraction : ZeroFraction fraction
  blank_after : ∀ c ∈ after, isWhiteSpace c

namespace Spelling

variable {negative : Bool}

/-- What follows the sign. -/
def unsigned (s : Spelling negative n) : List Char :=
  List.replicate s.zeros '0' ++ s.digits ++ s.fraction

/-- The text. -/
def text (s : Spelling negative n) : String :=
  String.ofList (s.before ++ (s.sign ++ s.unsigned) ++ s.after)

/-- A number starts with a digit, and it ends with one. -/
theorem exists_unsigned (s : Spelling negative n) :
    ∃ c cs, s.unsigned = c :: cs ∧ c.isDigit = true := by
  unfold unsigned
  cases s.zeros with
  | zero =>
    obtain ⟨c, cs, hcs, hc, -⟩ := s.grouped.exists_cons
    rw [hcs]
    exact ⟨c, _, rfl, hc⟩
  | succ k => exact ⟨'0', _, rfl, rfl⟩

theorem getLast?_unsigned (s : Spelling negative n) :
    ∃ c, s.unsigned.getLast? = some c ∧ c.isDigit = true := by
  unfold unsigned
  rcases s.zero_fraction with h | ⟨k, h⟩
  · cases hlast : s.digits.getLast? with
    | none =>
      obtain ⟨c, cs, hcs, -⟩ := s.grouped.exists_cons
      rw [List.getLast?_eq_none_iff.1 hlast] at hcs
      cases hcs
    | some c =>
      refine ⟨c, by rw [h, List.append_nil, List.getLast?_append, hlast]; rfl, ?_⟩
      refine (s.grouped.isDigit_of_mem (List.mem_of_getLast? hlast)).resolve_left ?_
      rintro rfl
      exact s.grouped.last hlast
  · refine ⟨'0', ?_, rfl⟩
    rw [h, List.replicate_succ', ← List.cons_append, ← List.append_assoc, List.getLast?_concat]

theorem trimmed (s : Spelling negative n) : Trimmed isWhiteSpace (s.sign ++ s.unsigned) := by
  obtain ⟨c, cs, hcs, hc⟩ := s.exists_unsigned
  obtain ⟨d, hlast, hd⟩ := s.getLast?_unsigned
  constructor
  · have hsign := s.isSign
    generalize s.sign = sign at hsign
    intro e he
    rw [hcs] at he
    cases hsign <;> cases he
    · decide
    · decide
    · exact not_isWhiteSpace_of_isDigit hc
  · intro e he
    rw [List.getLast?_append, hlast] at he
    cases he
    exact not_isWhiteSpace_of_isDigit hd

theorem splitSign_eq (s : Spelling negative n) :
    splitSign (s.sign ++ s.unsigned) = (negative, s.unsigned) := by
  obtain ⟨c, cs, hcs, hc⟩ := s.exists_unsigned
  have hsign := s.isSign
  rw [hcs]
  generalize s.sign = sign at hsign
  cases hsign with
  | minus => rfl
  | plus => rfl
  | none =>
    rw [List.nil_append]
    unfold splitSign
    split
    · next he => cases he; cases hc
    · next he => cases he; cases hc
    · rfl

theorem ofNumeral?_toDigits (h : isTooLong negative (Nat.toDigits 10 n) = false) :
    ofNumeral? (if negative then '-' :: Nat.toDigits 10 n else Nat.toDigits 10 n) =
      some (signed negative n) := by
  by_cases hzero : negative = true ∧ n = 0
  · -- A minus sign before zero is never written by a printer, but it is read.
    obtain ⟨rfl, rfl⟩ := hzero
    decide +kernel
  · have hneg : signed negative n < 0 ↔ negative = true := by
      unfold signed
      split <;> simp_all
      omega
    have habs : (signed negative n).natAbs = n := by
      unfold signed
      split <;> omega
    have hfits : Fits (signed negative n) := by
      have hdecide : decide (signed negative n < 0) = negative := by
        rw [Bool.eq_iff_iff, decide_eq_true_iff]
        exact hneg
      rw [Fits, hdecide, habs, h]
    have hword := word?_writeInt hfits
    simp only [writeInt, hneg, habs] at hword
    rw [ofNumeral?, hword]

/-- **Spelled numbers are read** as the numbers, if their digits are not too many. -/
theorem ofText?_text (s : Spelling negative n)
    (h : isTooLong negative (Nat.toDigits 10 n) = false) :
    ofText? s.text = some (signed negative n) := by
  have hne : s.sign ++ s.unsigned ≠ [] := by
    obtain ⟨c, cs, hcs, -⟩ := s.exists_unsigned
    simp [hcs]
  have hdot : '.' ∉ s.digits := fun hmem => by
    rcases s.grouped.isDigit_of_mem hmem with hc | hc <;> cases hc
  unfold ofText? text
  rw [String.toList_ofList, trim_append s.blank_before s.blank_after hne s.trimmed, s.splitSign_eq]
  simp only [unsigned, dropZeros?_replicate s.grouped s.zero_fraction, Option.bind_eq_bind,
    Option.bind_some, dropFraction_append hdot s.zero_fraction, s.grouped.dropUnderscores_eq,
    ofNumeral?_toDigits h]

theorem isTooLong_of_length_le {whole : List Char}
    (h : isTooLong negative (Nat.toDigits 10 n) = false)
    (hle : whole.length ≤ (Nat.toDigits 10 n).length) : isTooLong negative whole = false := by
  unfold isTooLong at *
  rw [decide_eq_false_iff_not] at *
  omega

/-- The digits before the first underscore are not more than all digits. -/
theorem length_takeWhile_le (h : Grouped n cs) (hrest : ∀ c ∈ rest.head?, c.isDigit = false) :
    ((cs ++ rest).takeWhile Char.isDigit).length ≤ (Nat.toDigits 10 n).length := by
  have htake : (cs ++ rest).takeWhile Char.isDigit = cs.takeWhile Char.isDigit := by
    rw [List.takeWhile_append]
    split
    · next hall =>
      rw [takeWhile_eq_nil hrest, List.append_nil]
      exact ((List.takeWhile_prefix _).eq_of_length hall).symm
    · rfl
  have hdigits : (cs.takeWhile Char.isDigit).filter (· ≠ '_') = cs.takeWhile Char.isDigit := by
    refine List.filter_eq_self.2 fun c hc => ?_
    have := List.mem_takeWhile_imp hc
    rw [decide_eq_true_eq]
    rintro rfl
    cases this
  rw [htake, ← hdigits, ← h.digits]
  exact ((List.takeWhile_sublist _).filter _).length_le

theorem isDigit_head?_after (s : Spelling negative n) :
    ∀ c ∈ (s.fraction ++ s.after).head?, c.isDigit = false := by
  intro c hc
  rcases s.zero_fraction with h | ⟨k, h⟩ <;> rw [h] at hc
  · exact not_isDigit_of_isWhiteSpace (s.blank_after c (List.mem_of_head? hc))
  · cases hc
    rfl

/-- The whole part of a spelling has leading zeros or is not too long. -/
theorem wholePart (s : Spelling negative n) (h : isTooLong negative (Nat.toDigits 10 n) = false) :
    let whole := (s.unsigned ++ s.after).takeWhile Char.isDigit
    hasLeadingZero whole = true ∨ isTooLong negative whole = false := by
  intro whole
  have hwhole : whole = (List.replicate s.zeros '0' ++
      (s.digits ++ (s.fraction ++ s.after))).takeWhile Char.isDigit := by
    simp only [whole, unsigned, List.append_assoc]
  cases hk : s.zeros with
  | zero =>
    rw [hk, List.replicate_zero, List.nil_append] at hwhole
    rw [hwhole]
    exact .inr (isTooLong_of_length_le h (length_takeWhile_le s.grouped s.isDigit_head?_after))
  | succ k =>
    rw [hk, List.replicate_succ, List.cons_append, List.takeWhile_cons_of_pos rfl] at hwhole
    by_cases hlength : 1 < whole.length
    · have hhead : whole.head? = some '0' := by rw [hwhole, List.head?_cons]
      exact .inl (by simp [hasLeadingZero, hhead, hlength])
    · have hpos : 0 < (Nat.toDigits 10 n).length := Nat.length_toDigits_pos
      exact .inr (isTooLong_of_length_le h (by omega))

theorem startsTooLong_eq_false (s : Spelling negative n)
    (h : isTooLong negative (Nat.toDigits 10 n) = false) : startsTooLong s.text.toList = false := by
  have hwhole := s.wholePart h
  obtain ⟨c, cs, hcs, hc⟩ := s.exists_unsigned
  rw [text, String.toList_ofList]
  have hblank := s.blank_before
  have hsign := s.isSign
  generalize s.sign = sign at hsign
  generalize s.before = before at hblank
  cases before with
  | cons b before =>
    -- A text that starts with a blank has no whole part.
    have hb := hblank b List.mem_cons_self
    have hdigit := not_isDigit_of_isWhiteSpace hb
    have hminus : b ≠ '-' := by
      rintro rfl
      cases hb
    simp [startsTooLong, hminus, hdigit]
    decide
  | nil =>
    rw [List.nil_append]
    cases hsign with
    | plus =>
      simp [startsTooLong]
      decide
    | minus => rcases hwhole with hwhole | hwhole <;> simp [startsTooLong, hwhole]
    | none =>
      have hminus : c ≠ '-' := by
        rintro rfl
        cases hc
      rw [hcs, List.cons_append] at hwhole
      rw [hcs, List.nil_append, List.cons_append]
      rcases hwhole with hwhole | hwhole <;> simp [startsTooLong, hminus, hwhole]

/-- **Spelled numbers are accepted**: what is taken off is not counted as digits. -/
theorem ofText_text (s : Spelling negative n)
    (h : isTooLong negative (Nat.toDigits 10 n) = false) :
    ofText s.text = .ok (signed negative n) := by
  rw [ofText, s.startsTooLong_eq_false h, s.ofText?_text h]
  rfl

example : ofText " -01_000.00" = .ok (-1000) := by decide +kernel

/-- The spelling that a printer chooses. -/
def ofInt (k : Int) : Spelling (k < 0) k.natAbs where
  before := []
  sign := if k < 0 then ['-'] else []
  zeros := 0
  digits := Nat.toDigits 10 k.natAbs
  fraction := []
  after := []
  blank_before _ h := by cases h
  isSign := by
    split
    · next hk =>
      rw [decide_eq_true hk]
      exact .minus
    · next hk =>
      rw [decide_eq_false hk]
      exact .none
  grouped := grouped_toDigits _
  zero_fraction := .inl rfl
  blank_after _ h := by cases h

theorem text_ofInt (k : Int) : (ofInt k).text = String.ofList (writeInt k) := by
  by_cases hk : k < 0 <;> simp [text, unsigned, ofInt, writeInt, hk]

/-- **Printed numbers are accepted** as well. -/
theorem ofText_writeInt {k : Int} (h : Fits k) : ofText (String.ofList (writeInt k)) = .ok k := by
  have hk : signed (k < 0) k.natAbs = k := by simpa [signed] using signed_natAbs k
  rw [← text_ofInt, (ofInt k).ofText_text h, hk]

end Spelling

end DemandPlan.WholeNumber
