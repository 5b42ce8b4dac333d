import DemandPlan.Json.Decimal
import Mathlib

/-!
# Decimals that are read as whole numbers

`Decimal.nearest` rounds a decimal to the nearest binary64 number and tells whether this number is
whole. Rounding never makes up a whole number that is far away, and it never loses one that binary64
can hold together with its neighbours.

* `Decimal.roundEven_half`: rounding a quotient moves it by a half at most.
* `Decimal.approximates_of_nearest`: a whole number that is read differs from the decimal by half a
  unit in the last of 53 binary digits at most, or the decimal vanishes.
* `Decimal.nearest_of_value`: whole numbers below `2 ^ 53` are read as they are, in whatever way
  they are written.
-/

namespace DemandPlan.Decimal

variable {d : Decimal} {num den : Nat} {n : Int}

/-- The number itself. -/
def value (d : Decimal) : Rat := d.significand * (10 : Rat) ^ d.exponent

/-! ## The first digit -/

theorem ten_zpow_pos (k : Int) : 0 < (10 : Rat) ^ k := zpow_pos (by norm_num) k

theorem abs_value (d : Decimal) : |d.value| = d.significand.natAbs * (10 : Rat) ^ d.exponent := by
  rw [value, abs_mul, abs_of_pos (ten_zpow_pos _), Nat.cast_natAbs, Int.cast_abs]

theorem abs_value_eq_div (d : Decimal) : |d.value| =
    ((d.significand.natAbs * 10 ^ d.exponent.toNat : Nat) : Rat) /
      ((10 ^ (-d.exponent).toNat : Nat) : Rat) := by
  have hpow : (10 : Rat) ^ d.exponent = 10 ^ d.exponent.toNat / 10 ^ (-d.exponent).toNat := by
    rw [← zpow_natCast, ← zpow_natCast, ← zpow_sub₀ (by norm_num)]
    congr 1
    omega
  rw [abs_value, hpow]
  push_cast
  ring

/-- A number is less than the power of ten before its first digit. -/
theorem abs_value_lt (d : Decimal) : |d.value| < (10 : Rat) ^ d.magnitude := by
  have h := (Nat.length_toDigits_le_iff (b := 10) (by decide) Nat.length_toDigits_pos).1
    (Nat.le_refl (Nat.toDigits 10 d.significand.natAbs).length)
  rw [abs_value, magnitude, zpow_add₀ (by norm_num), zpow_natCast]
  refine mul_lt_mul_of_pos_right ?_ (ten_zpow_pos _)
  exact_mod_cast h

/-- It is at least the power of ten at its first digit. -/
theorem le_abs_value (h : d.significand ≠ 0) : (10 : Rat) ^ (d.magnitude - 1) ≤ |d.value| := by
  have hlen : 0 < (Nat.toDigits 10 d.significand.natAbs).length := Nat.length_toDigits_pos
  obtain ⟨k, hk⟩ := Nat.exists_eq_succ_of_ne_zero hlen.ne'
  have hpow : 10 ^ k ≤ d.significand.natAbs := by
    cases k with
    | zero => exact Int.natAbs_pos.2 h
    | succ k =>
      refine not_lt.1 (mt (Nat.length_toDigits_le_iff (by decide) k.succ_pos).2 ?_)
      omega
  have hexp : d.magnitude - 1 = k + d.exponent := by
    unfold magnitude
    omega
  rw [abs_value, hexp, zpow_add₀ (by norm_num), zpow_natCast]
  refine mul_le_mul_of_nonneg_right ?_ (ten_zpow_pos _).le
  exact_mod_cast hpow

/-! ## Rounding -/

/-- Rounding goes to a whole number that is not more than a half away. -/
theorem roundEven_half (num : Nat) (hd : 0 < den) :
    |(roundEven num den : Rat) - num / den| ≤ 1 / 2 := by
  have hden : (0 : Rat) < den := by exact_mod_cast hd
  have hx : (num : Rat) / den = (num / den : Nat) + (num % den : Nat) / den := by
    rw [div_eq_iff hden.ne', add_mul, div_mul_cancel₀ _ hden.ne']
    exact_mod_cast (Nat.div_add_mod' num den).symm
  have hmod : ((num % den : Nat) : Rat) / den < 1 :=
    (div_lt_one hden).2 (by exact_mod_cast Nat.mod_lt num hd)
  have hnonneg : 0 ≤ ((num % den : Nat) : Rat) / den := by positivity
  rw [hx, roundEven]
  split
  · next hup =>
    have hge : 1 / 2 ≤ ((num % den : Nat) : Rat) / den := by
      rw [div_le_div_iff₀ two_pos hden, one_mul, mul_comm]
      exact_mod_cast (show den ≤ 2 * (num % den) by omega)
    rw [Nat.cast_add_one, abs_le]
    constructor <;> linarith
  · next hdown =>
    have hle : ((num % den : Nat) : Rat) / den ≤ 1 / 2 := by
      rw [div_le_div_iff₀ hden two_pos, one_mul, mul_comm]
      exact_mod_cast (show 2 * (num % den) ≤ den by omega)
    rw [abs_le]
    constructor <;> linarith

/-- The number `k` approximates `x` as binary64 numbers do: up to half a unit in the last of 53
binary digits, or up to half of the smallest positive number. -/
def Approximates (k x : Rat) : Prop := |k - x| ≤ |x| / 2 ^ 53 ∨ k = 0 ∧ |x| ≤ 1 / 2 ^ 1075

/-- Half a unit, which is `1 / scale`, is small if the number has 52 binary digits before it. -/
theorem approximates_of_half {k x scale : Rat} (hs : 0 < scale)
    (h : |k * scale - x * scale| ≤ 1 / 2) (hx : 2 ^ 52 ≤ x * scale) : Approximates k x := by
  have hpos : 0 < x := by
    by_contra hnot
    have := mul_nonpos_of_nonpos_of_nonneg (not_lt.1 hnot) hs.le
    linarith
  rw [← sub_mul, abs_mul, abs_of_pos hs] at h
  refine .inl ?_
  rw [abs_of_pos hpos, le_div_iff₀ (by norm_num)]
  refine le_of_mul_le_mul_right ?_ hs
  calc |k - x| * 2 ^ 53 * scale = |k - x| * scale * 2 ^ 53 := by ring
    _ ≤ 1 / 2 * 2 ^ 53 := by gcongr
    _ = 2 ^ 52 := by norm_num
    _ ≤ x * scale := hx

/-- From `2 ^ 53` on, the unit is a power of two that leaves 53 binary digits before it. -/
theorem approximates_of_large (hd : 0 < den) (h : 2 ^ 53 ≤ num / den) :
    let unit := 2 ^ ((num / den).log2 - 52)
    Approximates (roundEven num (den * unit) * unit : Nat) ((num : Rat) / den) := by
  intro unit
  have hlog : 52 ≤ (num / den).log2 := (Nat.le_log2 (by omega)).2 (by omega)
  have hunit : (0 : Rat) < unit := by positivity
  have hhalf := roundEven_half num (Nat.mul_pos hd (Nat.two_pow_pos _) : 0 < den * unit)
  refine approximates_of_half (inv_pos.2 hunit) ?_ ?_
  · rw [Nat.cast_mul, mul_inv_cancel_right₀ hunit.ne', ← div_eq_mul_inv, div_div]
    exact_mod_cast hhalf
  · have hfloor : 2 ^ 52 * unit ≤ num / den := by
      rw [← pow_add, Nat.add_sub_cancel' hlog]
      exact Nat.log2_self_le (by omega)
    have hx : ((num / den : Nat) : Rat) ≤ num / den := Nat.cast_div_le
    rw [← div_eq_mul_inv, le_div_iff₀ hunit]
    exact le_trans (by exact_mod_cast hfloor) hx

/-- Below, the number is scaled so that as many digits stand before the point. -/
theorem approximates_of_middle (hd : 0 < den) (hnum : den ≤ 2 * num) {scale k : Nat}
    (hscale : scale = if num / den = 0 then 2 ^ 53 else 2 ^ (52 - (num / den).log2))
    (hbelow : num / den < 2 ^ 53)
    (hk : roundEven (num * scale) den = k * scale) : Approximates k ((num : Rat) / den) := by
  have hden : (0 : Rat) < den := by exact_mod_cast hd
  have hpos : 0 < scale := by
    rw [hscale]
    split <;> exact Nat.two_pow_pos _
  refine approximates_of_half (Nat.cast_pos.2 hpos) ?_ ?_
  · have hhalf := roundEven_half (num * scale) hd
    rwa [hk, Nat.cast_mul, Nat.cast_mul, mul_div_right_comm] at hhalf
  · rw [hscale]
    split
    · have hx : 1 / 2 ≤ (num : Rat) / den := by
        rw [div_le_div_iff₀ two_pos hden, one_mul, mul_comm]
        exact_mod_cast hnum
      push_cast
      linarith
    · next hne =>
      have hlog : (num / den).log2 ≤ 52 := by
        have := (Nat.log2_lt hne).2 hbelow
        omega
      have hx : ((2 ^ (num / den).log2 : Nat) : Rat) ≤ num / den :=
        le_trans (Nat.cast_le.2 (Nat.log2_self_le hne)) Nat.cast_div_le
      calc (2 : Rat) ^ 52 = (2 ^ (num / den).log2 : Nat) * (2 ^ (52 - (num / den).log2) : Nat) := by
            rw [← Nat.cast_mul, ← pow_add, Nat.add_sub_cancel' hlog]
            norm_num
        _ ≤ num / den * (2 ^ (52 - (num / den).log2) : Nat) := by gcongr

theorem div_le_of_mul_pow_le (hd : 0 < den) {e : Nat} (h : num * Nat.pow 2 e ≤ den) :
    |(num : Rat) / den| ≤ 1 / 2 ^ e := by
  have hden : (0 : Rat) < den := by exact_mod_cast hd
  rw [abs_of_nonneg (by positivity), div_le_div_iff₀ hden (by positivity), one_mul]
  exact_mod_cast h

theorem approximates_of_nearestNat (hd : 0 < den) (h : nearestNat num den = .whole n) :
    Approximates n ((num : Rat) / den) := by
  rw [nearestNat] at h
  generalize hscale : (if num / den = 0 then Nat.pow 2 53 else Nat.pow 2 (52 - (num / den).log2)) =
    scale at h
  dsimp only at h
  split at h
  · -- From `2 ^ 53` on.
    next hbig =>
    split at h
    · obtain rfl := Nearest.whole.inj h
      rw [Int.cast_natCast]
      exact approximates_of_large hd hbig
    · cases h
  split at h
  · -- Less than a half: only what vanishes is whole.
    split at h
    · next htiny =>
      obtain rfl := Nearest.whole.inj h
      unfold Approximates
      generalize 1075 = e at htiny ⊢
      exact .inr ⟨Int.cast_zero, div_le_of_mul_pow_le hd htiny⟩
    · cases h
  · -- In between: the scaled number is rounded to a multiple of the scale.
    next hbelow hhalf =>
    split at h
    · next hwhole =>
      obtain rfl := Nearest.whole.inj h
      rw [Int.cast_natCast]
      refine approximates_of_middle hd (not_lt.1 hhalf) hscale.symm (not_le.1 hbelow) ?_
      exact (Nat.div_mul_cancel (Nat.dvd_of_mod_eq_zero hwhole)).symm
    · cases h

theorem Approximates.neg {k x : Rat} (h : Approximates k x) : Approximates (-k) (-x) := by
  unfold Approximates at *
  rwa [neg_sub_neg, abs_sub_comm, abs_neg, neg_eq_zero]

/-- A number with no digit in the first 330 places after the point is taken for zero. -/
theorem approximates_zero (h : d.magnitude < -330) : Approximates 0 |d.value| := by
  have hlt : |d.value| < (10 : Rat) ^ (-330 : Int) :=
    d.abs_value_lt.trans (zpow_lt_zpow_right₀ (by norm_num) h)
  have hpow : (2 : Rat) ^ 1075 ≤ 10 ^ 330 :=
    calc (2 : Rat) ^ 1075 ≤ 2 ^ (33 * 33) := pow_le_pow_right₀ (by norm_num) (by norm_num)
      _ = (2 ^ 33) ^ 33 := pow_mul _ _ _
      _ ≤ (10 ^ 10) ^ 33 := pow_le_pow_left₀ (by norm_num) (by norm_num) _
      _ = 10 ^ 330 := (pow_mul _ _ _).symm
  have htiny : (10 : Rat) ^ (-330 : Int) ≤ 1 / 2 ^ 1075 := by
    rw [zpow_neg, ← one_div]
    exact one_div_le_one_div_of_le (by positivity) hpow
  exact .inr ⟨rfl, (abs_abs d.value).le.trans (hlt.le.trans htiny)⟩

theorem value_eq (d : Decimal) :
    d.value = if d.significand < 0 then -|d.value| else |d.value| := by
  split
  · next h =>
    have hneg : d.value ≤ 0 :=
      mul_nonpos_of_nonpos_of_nonneg (Int.cast_nonpos.2 h.le) (ten_zpow_pos _).le
    rw [abs_of_nonpos hneg, neg_neg]
  · next h =>
    have hpos : 0 ≤ d.value := mul_nonneg (Int.cast_nonneg (not_lt.1 h)) (ten_zpow_pos _).le
    rw [abs_of_nonneg hpos]

theorem approximates_of_nearestAbs (h : d.nearestAbs = .whole n) : Approximates n |d.value| := by
  unfold nearestAbs at h
  split at h
  · next hsmall =>
    obtain rfl := Nearest.whole.inj h
    rw [Int.cast_zero]
    rcases hsmall with hzero | hsmall
    · refine .inl ?_
      rw [value, hzero]
      norm_num
    · exact approximates_zero hsmall
  split at h
  · cases h
  · rw [abs_value_eq_div]
    exact approximates_of_nearestNat (Nat.pow_pos (by norm_num)) h

/-- **A whole number that is read** differs from the decimal by a rounding only. -/
theorem approximates_of_nearest (h : d.nearest = .whole n) : Approximates n d.value := by
  unfold nearest at h
  split at h
  · next k habs =>
    obtain rfl := Nearest.whole.inj h
    have hk := approximates_of_nearestAbs habs
    rw [value_eq]
    split
    · rw [Int.cast_neg]
      exact hk.neg
    · exact hk
  · next hother => exact absurd h (hother n)

example : nearest ⟨9007199254740993, 0⟩ = .whole 9007199254740992 := by decide +kernel

/-! ## Whole numbers -/

theorem nearestNat_mul (hd : 0 < den) {k : Nat} (hk : k < 2 ^ 53) :
    nearestNat (k * den) den = .whole k := by
  rw [nearestNat, Nat.mul_div_cancel _ hd]
  generalize hscale : (if k = 0 then Nat.pow 2 53 else Nat.pow 2 (52 - k.log2)) = scale
  have hpos : 0 < scale := by
    rw [← hscale]
    split <;> exact Nat.two_pow_pos _
  dsimp only
  rw [if_neg (show ¬Nat.pow 2 53 ≤ k from not_le.2 hk)]
  split
  · next hhalf =>
    obtain rfl : k = 0 := by
      by_contra hne
      have := Nat.le_mul_of_pos_left den (Nat.pos_of_ne_zero hne)
      omega
    simp only [Nat.zero_mul, Nat.zero_le, if_true, Nat.cast_zero]
  · rw [mul_right_comm, roundEven_mul hd, if_pos (Nat.mul_mod_left _ _), Nat.mul_div_cancel _ hpos]

theorem nearestAbs_of_abs_value {k : Nat} (h : |d.value| = k) (hk : k < 2 ^ 53) :
    d.nearestAbs = .whole k := by
  unfold nearestAbs
  split
  · next hsmall =>
    have hlt : (k : Rat) < 1 := by
      rw [← h]
      rcases hsmall with hzero | hsmall
      · rw [value, hzero]
        norm_num
      · exact d.abs_value_lt.trans (zpow_lt_one_of_neg₀ (by norm_num) (by omega))
    obtain rfl := Nat.cast_lt_one.1 hlt
    rfl
  split
  · next hsmall hlarge =>
    -- With more than 310 digits before the point the number would be far beyond `2 ^ 53`.
    have hge : (10 : Rat) ^ (16 : Int) ≤ k :=
      h ▸ le_trans (zpow_le_zpow_right₀ (by norm_num) (by omega))
        (le_abs_value (not_or.1 hsmall).1)
    have : 10 ^ 16 ≤ k := by exact_mod_cast hge
    omega
  · have hnum : d.significand.natAbs * 10 ^ d.exponent.toNat = k * 10 ^ (-d.exponent).toNat := by
      rw [abs_value_eq_div, div_eq_iff (by positivity)] at h
      exact_mod_cast h
    exact hnum ▸ nearestNat_mul (Nat.pow_pos (by norm_num)) hk

/-- **Whole numbers** below `2 ^ 53` are read as they are, in whatever way they are written. -/
theorem nearest_of_value (h : d.value = n) (hn : n.natAbs < 2 ^ 53) : d.nearest = .whole n := by
  have habs : |d.value| = n.natAbs := by rw [h, Nat.cast_natAbs, Int.cast_abs]
  have hvalue : (n : Rat) = if d.significand < 0 then -(n.natAbs : Rat) else n.natAbs := by
    rw [← habs, ← value_eq, h]
  rw [nearest, nearestAbs_of_abs_value habs hn]
  dsimp only
  split at hvalue
  · next hneg =>
    have hcast : ((-(n.natAbs : Int) : Int) : Rat) = n := by
      rw [Int.cast_neg, Int.cast_natCast, hvalue]
    rw [if_pos hneg, Int.cast_injective hcast]
  · next hpos =>
    have hcast : ((n.natAbs : Int) : Rat) = n := by rw [Int.cast_natCast, hvalue]
    rw [if_neg hpos, Int.cast_injective hcast]

example : nearest ⟨-1000, -3⟩ = .whole (-1) := by decide +kernel

end DemandPlan.Decimal
