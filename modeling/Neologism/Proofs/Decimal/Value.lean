import Neologism.Decimal.Shortest
import Neologism.Proofs.Doubles.Nearest

/-! # The value of a decimal

A decimal is read as the rounding of its value. So how it is written does not matter: zeros at the
end of the digits can be moved into the exponent and back.

Main statements: `rounds_toFloat` and `toFloat_eq_of_value_eq`. -/

namespace Neologism.Decimal

open Float.Model Doubles

/-- Whether the parts are a mantissa of 53 bits with an exponent, and stand for a power of ten. -/
def isPower (u : UnpackedFloat) (k : Nat) : Bool :=
  match u with
  | .finite .positive m e _ =>
      decide (2 ^ 52 ≤ m ∧ -52 ≤ e ∧ m * 2 ^ (e + 52).toNat = 10 ^ k * 2 ^ 52)
  | _ => false

/-- The powers of ten that are doubles are kept as such. -/
theorem isPower_exactlyRepresentable : ∀ k : Fin Float.exactlyRepresentablePowersOfTen.size,
    isPower (parts Float.exactlyRepresentablePowersOfTen[k]) k = true := by
  decide +kernel

theorem parts_of_isPower {u : UnpackedFloat} {k : Nat} (h : isPower u k = true) :
    ∃ m e hm, u = .finite .positive m e hm ∧ 2 ^ 52 ≤ m ∧ (m : ℚ) * 2 ^ e = 10 ^ k := by
  unfold isPower at h
  split at h
  · next m e hm =>
      obtain ⟨hlow, he, hvalue⟩ := of_decide_eq_true h
      refine ⟨m, e, hm, rfl, hlow, ?_⟩
      obtain ⟨d, hd⟩ := Int.le.dest he
      obtain rfl : e = d - 52 := by omega
      have hvalue' : (m : ℚ) * 2 ^ d = 10 ^ k * 2 ^ 52 := by
        rw [show ((d : ℤ) - 52 + 52).toNat = d by omega] at hvalue
        exact_mod_cast hvalue
      rw [zpow_sub₀ two_ne_zero, zpow_natCast, ← mul_div_assoc, hvalue']
      exact mul_div_cancel_right₀ _ (by positivity)
  · cases h

theorem parts_exactlyRepresentable {e : Nat}
    (he : e < Float.exactlyRepresentablePowersOfTen.size) :
    ∃ m k hm, parts Float.exactlyRepresentablePowersOfTen[e] = .finite .positive m k hm ∧
      2 ^ 52 ≤ m ∧ (m : ℚ) * 2 ^ k = 10 ^ e :=
  parts_of_isPower (isPower_exactlyRepresentable ⟨e, he⟩)

variable {m e : Nat}

theorem toFloat_toUInt64 (hm : m < 2 ^ 53) : m.toUInt64.toFloat = Doubles.ofNat m := by
  have hsize : m.toUInt64.toNat = m := UInt64.toNat_ofNat_of_lt' (by simp [UInt64.size]; omega)
  rw [UInt64.toFloat, ofUInt64, UnpackedFloat.ofUInt64, hsize]
  rfl

/-- A natural number that is a double keeps its value. -/
theorem parts_toFloat_toUInt64 (hpos : 0 < m) (hm : m < 2 ^ 53) :
    ∃ n k hn, parts m.toUInt64.toFloat = .finite .positive n k hn ∧ 2 ^ 52 ≤ n ∧
      (n : ℚ) * 2 ^ k = m := by
  obtain ⟨hn, hparts, hlow, -⟩ := parts_ofNat hpos hm
  rw [toFloat_toUInt64 hm]
  refine ⟨_, _, hn, hparts, hlow, ?_⟩
  have hlog : m.log2 ≤ 52 := log2_le hm
  have hexponent : (m.log2 : ℤ) - 52 = -(52 - m.log2 : Nat) := by omega
  rw [hexponent, zpow_neg, zpow_natCast]
  push_cast
  exact mul_inv_cancel_right₀ (by positivity) _

theorem le_log2_mul {n₁ n₂ : Nat} (h₁ : 2 ^ 52 ≤ n₁) (h₂ : 0 < n₂) : 52 ≤ (n₁ * n₂).log2 :=
  (Nat.le_log2 (by positivity)).mpr (h₁.trans (Nat.le_mul_of_pos_right _ h₂))

/-- A natural number times a power of ten is read as the rounding of their product. -/
theorem rounds_ofScientific_mul (hpos : 0 < m) (he : e ≤ 2048) :
    ∃ u, Rounds (m * 10 ^ e) u ∧ Float.ofScientific m false e = .ofModel (.pack u) := by
  rw [Float.ofScientific]
  split
  · next hsmall =>
      obtain ⟨n, k, hn, hparts, hlow, hvalue⟩ := parts_toFloat_toUInt64 hpos hsmall.1
      have hsize : e < Float.exactlyRepresentablePowersOfTen.size := Nat.lt_succ_of_le hsmall.2
      obtain ⟨n', k', hn', hparts', -, hvalue'⟩ := parts_exactlyRepresentable hsize
      refine ⟨.mul .binary64 (parts m.toUInt64.toFloat)
        (parts Float.exactlyRepresentablePowersOfTen[e]), ?_, rfl⟩
      rw [hparts, hparts', ← hvalue, ← hvalue']
      exact rounds_mul hn hn' (le_log2_mul hlow hn')
  · have hhigh : ¬ (e : ℤ) > 2 ^ Format.binary64.exponentBits := by
      norm_num
      omega
    have hlow : ¬ (e : ℤ) < -(2 ^ Format.binary64.exponentBits + m.log2) := by
      norm_num
      omega
    have hshift : m <<< Format.binary64.mantissaBits = m * 2 ^ 53 := Nat.shiftLeft_eq _ _
    refine ⟨_, ?_, rfl⟩
    simp only [Bool.false_eq_true, if_false, UnpackedFloat.ofScientific, Int.ofNat_eq_natCast,
      Int.toNat_natCast, hshift]
    rw [dif_neg hpos.ne', if_neg hhigh, if_neg hlow, if_pos (Int.natCast_nonneg e)]
    have hvalue : (m : ℚ) * 10 ^ e =
        (m * 2 ^ 53 : Nat) * 2 ^ (-53 : ℤ) * ((10 ^ e : Nat) * 2 ^ (0 : ℤ)) := by
      rw [zpow_zero, mul_one, zpow_neg, ← div_eq_mul_inv]
      push_cast
      rw [mul_div_assoc, div_self (by positivity), mul_one]
    rw [hvalue]
    refine rounds_mul _ _ ?_
    rw [mul_comm m, mul_assoc]
    exact le_log2_mul (by norm_num) (by positivity)

/-- A natural number over a power of ten is read as the rounding of their quotient. -/
theorem rounds_ofScientific_div (hpos : 0 < m) (hexponent : 0 < e) (he : e ≤ 2048 + m.log2) :
    ∃ u, Rounds (m / 10 ^ e) u ∧ Float.ofScientific m true e = .ofModel (.pack u) := by
  rw [Float.ofScientific]
  split
  · next hsmall =>
      obtain ⟨n, k, hn, hparts, -, hvalue⟩ := parts_toFloat_toUInt64 hpos hsmall.1
      have hsize : e < Float.exactlyRepresentablePowersOfTen.size := Nat.lt_succ_of_le hsmall.2
      obtain ⟨n', k', hn', hparts', -, hvalue'⟩ := parts_exactlyRepresentable hsize
      refine ⟨.div .binary64 (parts m.toUInt64.toFloat)
        (parts Float.exactlyRepresentablePowersOfTen[e]), ?_, rfl⟩
      rw [hparts, hparts', ← hvalue, ← hvalue']
      exact rounds_div hn hn'
  · have hhigh : ¬ -(e : ℤ) > 2 ^ Format.binary64.exponentBits := by
      rw [gt_iff_lt, not_lt]
      exact (Int.neg_nonpos_of_nonneg (Int.natCast_nonneg e)).trans (by norm_num)
    have hlow : ¬ -(e : ℤ) < -(2 ^ Format.binary64.exponentBits + m.log2) := by
      norm_num
      omega
    refine ⟨_, ?_, rfl⟩
    simp only [if_true, UnpackedFloat.ofScientific, Int.negOfNat_eq, Int.ofNat_eq_natCast,
      Int.neg_neg, Int.toNat_natCast]
    rw [dif_neg hpos.ne', if_neg hhigh, if_neg hlow, if_neg (by omega)]
    have hvalue : (m : ℚ) / 10 ^ e = m * 2 ^ (0 : ℤ) / ((10 ^ e : Nat) * 2 ^ (0 : ℤ)) := by
      push_cast
      norm_num
    rw [hvalue]
    exact rounds_div _ _

/-- The number that a decimal stands for. -/
def value (d : Decimal) : ℚ :=
  d.digits * 10 ^ d.exponent

variable {d d' : Decimal}

theorem value_eq_zero_iff : d.value = 0 ↔ d.digits = 0 := by
  rw [value, mul_eq_zero, Nat.cast_eq_zero]
  exact or_iff_left (zpow_pos (by norm_num) _).ne'

theorem digitCount_le_iff {n k : Nat} (hpos : 0 < n) (hk : 0 < k) :
    digitCount n ≤ k ↔ n < 10 ^ k := by
  rw [digitCount, if_neg hpos.ne']
  exact Nat.length_toDigits_le_iff (by norm_num) hk

theorem digitCount_pos {n : Nat} (hpos : 0 < n) : 0 < digitCount n := by
  rw [digitCount, if_neg hpos.ne']
  exact Nat.length_toDigits_pos

theorem digitCount_eq_iff {n k : Nat} (hpos : 0 < n) :
    digitCount n = k + 1 ↔ 10 ^ k ≤ n ∧ n < 10 ^ (k + 1) := by
  rw [← digitCount_le_iff hpos (Nat.succ_pos k)]
  rcases Nat.eq_zero_or_pos k with rfl | hk
  · have := digitCount_pos hpos
    simp only [pow_zero]
    omega
  · have := digitCount_le_iff hpos hk
    omega

/-- The digits and the exponent tell between which powers of ten the value lies. -/
theorem log_value (hpos : 0 < d.digits) :
    Int.log 10 d.value + 1 = digitCount d.digits + d.exponent := by
  obtain ⟨k, hk⟩ := Nat.exists_eq_add_one_of_ne_zero (digitCount_pos hpos).ne'
  obtain ⟨hlow, hhigh⟩ := (digitCount_eq_iff hpos).mp hk
  have hscale : (0 : ℚ) < 10 ^ d.exponent := zpow_pos (by norm_num) _
  have hlog : Int.log 10 d.value = k + d.exponent := by
    apply Doubles.log_eq_of_bounds (by norm_num) <;> rw [value, Nat.cast_ofNat]
    · rw [zpow_add₀ (by norm_num), zpow_natCast]
      exact mul_le_mul_of_nonneg_right (by exact_mod_cast hlow) hscale.le
    · rw [add_right_comm, zpow_add₀ (by norm_num)]
      exact mul_lt_mul_of_pos_right (by exact_mod_cast hhigh) hscale
  rw [hlog, hk]
  push_cast
  ring

/-- The digits are no more than the bits. -/
theorem digitCount_le_log2 {n : Nat} (hpos : 0 < n) : digitCount n ≤ n.log2 + 1 := by
  rw [digitCount_le_iff hpos (Nat.succ_pos _)]
  exact Nat.lt_log2_self.trans_le (Nat.pow_le_pow_left (by norm_num) _)

/-- A decimal that is in the range of doubles is read as the rounding of its value. -/
theorem rounds_toFloat (hpos : 0 < d.digits) (hlow : -400 ≤ digitCount d.digits + d.exponent)
    (hhigh : digitCount d.digits + d.exponent ≤ 400) :
    ∃ u, Rounds d.value u ∧ d.toFloat = .ofModel (.pack u) := by
  have hcount := digitCount_le_log2 hpos
  have hrange : d.toFloat =
      .ofScientific d.digits (decide (d.exponent < 0)) d.exponent.natAbs := by
    rw [toFloat]
    simp only [hpos.ne', not_lt.mpr hlow, not_lt.mpr hhigh, or_self, if_false]
  rw [hrange, value]
  rcases lt_or_ge d.exponent 0 with hneg | hnonneg
  · obtain ⟨u, hu, hfloat⟩ :=
      rounds_ofScientific_div (e := d.exponent.natAbs) hpos (by omega) (by omega)
    refine ⟨u, ?_, by rw [decide_eq_true hneg, hfloat]⟩
    have hexponent : d.exponent = -(d.exponent.natAbs : ℤ) := by omega
    rw [hexponent, zpow_neg, zpow_natCast, ← div_eq_mul_inv]
    simpa using hu
  · have hdigits := digitCount_pos hpos
    obtain ⟨u, hu, hfloat⟩ := rounds_ofScientific_mul (e := d.exponent.natAbs) hpos (by omega)
    refine ⟨u, ?_, by rw [decide_eq_false (not_lt.mpr hnonneg), hfloat]⟩
    have hexponent : d.exponent = (d.exponent.natAbs : ℤ) := by omega
    rw [hexponent, zpow_natCast]
    simpa using hu

/-- Decimals of the same value are read alike. -/
theorem toFloat_eq_of_value_eq (h : d.value = d'.value) : d.toFloat = d'.toFloat := by
  rcases Nat.eq_zero_or_pos d.digits with hzero | hpos
  · have hzero' : d'.digits = 0 := by rwa [← value_eq_zero_iff, ← h, value_eq_zero_iff]
    simp only [toFloat, hzero, hzero', true_or, if_true]
  have hpos' : 0 < d'.digits := by
    rwa [Nat.pos_iff_ne_zero, ne_eq, ← value_eq_zero_iff, ← h, value_eq_zero_iff, ← ne_eq,
      ← Nat.pos_iff_ne_zero]
  have htop : (digitCount d.digits : ℤ) + d.exponent = digitCount d'.digits + d'.exponent := by
    rw [← log_value hpos, ← log_value hpos', h]
  by_cases hlow : (digitCount d.digits : ℤ) + d.exponent < -400
  · simp only [toFloat, ← htop, hlow, or_true, if_true]
  by_cases hhigh : 400 < (digitCount d.digits : ℤ) + d.exponent
  · simp only [toFloat, ← htop, hpos.ne', hpos'.ne', hlow, hhigh, or_self, if_true, if_false]
  obtain ⟨u, hu, hfloat⟩ := rounds_toFloat hpos (not_lt.mp hlow) (not_lt.mp hhigh)
  rw [htop] at hlow hhigh
  obtain ⟨u', hu', hfloat'⟩ := rounds_toFloat hpos' (not_lt.mp hlow) (not_lt.mp hhigh)
  rw [h] at hu
  rw [hfloat, hfloat', hu.unique hu']

end Neologism.Decimal
