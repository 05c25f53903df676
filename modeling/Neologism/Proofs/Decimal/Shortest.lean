import Neologism.Proofs.Decimal.Value

/-! # The fewest digits read back

The search for the fewest digits keeps a decimal only if it reads back. Where none is kept, the
exact value stands in, which reads back because it needs no rounding. Zeros at the end of the digits
make no difference.

Main statements: `parts_ofFloat` for the parts of a positive double, and `toFloat_shortest`. -/

namespace Neologism.Decimal

open Float.Model Doubles UnpackedFloat

variable {x : Weight}

theorem toNat_unpackMantissa (b : BitVec 64) :
    (@unpackMantissa .binary64 b).toNat = b.toNat % fractionSize := by
  simp [unpackMantissa, fractionSize]

theorem toNat_unpackExponent (b : BitVec 64) :
    (@unpackExponent .binary64 b).toNat = b.toNat / fractionSize % 0x800 := by
  simp [unpackExponent, fractionSize, Nat.shiftRight_eq_div_pow]

theorem sign_of_lt {b : BitVec 64} (h : b.toNat < 2 ^ 63) :
    Sign.ofBitVec (@unpackSign .binary64 b) = .positive := by
  have hzero : @unpackSign .binary64 b = 0#1 := by
    apply BitVec.eq_of_toNat_eq
    simp [unpackSign, Nat.shiftRight_eq_div_pow]
    omega
  rw [hzero]
  rfl

theorem sign_of_le {b : BitVec 64} (h : 2 ^ 63 ≤ b.toNat) :
    Sign.ofBitVec (@unpackSign .binary64 b) = .negative := by
  have hone : @unpackSign .binary64 b = 1#1 := by
    apply BitVec.eq_of_toNat_eq
    have hhigh := b.isLt
    simp [unpackSign, Nat.shiftRight_eq_div_pow]
    omega
  rw [hone]
  rfl

/-- The exponent that is all ones is not that of a finite double. -/
theorem unpackExponent_ne_of_isFinite (h : x.isFinite = true) :
    @unpackExponent .binary64 x.toBits.toBitVec ≠ -1#11 := by
  intro hlast
  have hfinite : (UnpackedFloat.unpack .binary64 x.toBits.toBitVec).isFinite = true := h
  simp only [UnpackedFloat.unpack] at hfinite
  rw [if_pos hlast] at hfinite
  split at hfinite <;> cases hfinite

/-- A positive double: finite and not zero, with the sign bit clear. -/
structure Positive (x : Weight) : Prop where
  finite : x.isFinite = true
  sign : x.toBits.toNat < 2 ^ 63
  ne_zero : x.toBits ≠ 0

theorem finite_congr {m m' : Nat} {e e' : ℤ} {hm : 0 < m} (h : m = m') (he : e = e') :
    ∃ hm', UnpackedFloat.finite .positive m e hm = .finite .positive m' e' hm' := by
  subst h he
  exact ⟨hm, rfl⟩

/-- The binary form of a positive double is what it is made of. -/
theorem parts_ofFloat (h : Positive x) :
    ∃ hm, parts x =
      .finite .positive (Binary.ofFloat x).significand (Binary.ofFloat x).scale hm := by
  have hmantissa := toNat_unpackMantissa x.toBits.toBitVec
  have hexponent := toNat_unpackExponent x.toBits.toBitVec
  rw [UInt64.toNat_toBitVec] at hmantissa hexponent
  change ∃ hm, UnpackedFloat.unpack .binary64 x.toBits.toBitVec = _
  simp only [UnpackedFloat.unpack, sign_of_lt (b := x.toBits.toBitVec) h.sign]
  rw [if_neg (unpackExponent_ne_of_isFinite h.finite)]
  simp only [Binary.ofFloat, ← hmantissa, ← hexponent]
  by_cases hfield : @unpackExponent .binary64 x.toBits.toBitVec = 0#11
  · have hfraction : @unpackMantissa .binary64 x.toBits.toBitVec ≠ 0#52 := by
      intro hzero
      rw [hfield] at hexponent
      rw [hzero] at hmantissa
      have hbits : x.toBits.toNat ≠ 0 := fun hbits => h.ne_zero (UInt64.toNat_inj.mp hbits)
      have hsign := h.sign
      simp only [fractionSize, BitVec.toNat_zero] at hmantissa hexponent
      omega
    rw [if_pos hfield, dif_neg hfraction]
    apply finite_congr <;> rw [hfield] <;> rfl
  · have hnonzero : (@unpackExponent .binary64 x.toBits.toBitVec).toNat ≠ 0 :=
      fun hzero => hfield (BitVec.eq_of_toNat_eq hzero)
    rw [if_neg hfield]
    apply finite_congr <;> rw [if_neg hnonzero]
    · change 2 ^ 52 ||| (@unpackMantissa .binary64 x.toBits.toBitVec).toNat = _
      rw [Nat.or_comm, Nat.or_two_pow_eq_add_of_lt (BitVec.isLt _)]
      rfl
    · rfl

/-- The significand has 53 bits, or fewer at the least scale. -/
theorem ofFloat_bounds (x : Weight) :
    (Binary.ofFloat x).significand < 2 ^ 53 ∧ (Binary.ofFloat x).scale ≤ 972 ∧
      (2 ^ 52 ≤ (Binary.ofFloat x).significand ∧ -1074 ≤ (Binary.ofFloat x).scale ∨
        (Binary.ofFloat x).scale = -1074) := by
  have hfraction : x.toBits.toNat % fractionSize < 2 ^ 52 := Nat.mod_lt _ (by decide)
  by_cases hfield : x.toBits.toNat / fractionSize % 0x800 = 0
  · have hform : Binary.ofFloat x = ⟨x.toBits.toNat % fractionSize, -1074⟩ := if_pos hfield
    rw [hform]
    exact ⟨hfraction.trans (by norm_num), by norm_num, .inr rfl⟩
  · have hform : Binary.ofFloat x = ⟨x.toBits.toNat % fractionSize + 2 ^ 52,
      (x.toBits.toNat / fractionSize % 0x800 : Nat) - 1075⟩ := if_neg hfield
    rw [hform]
    dsimp only
    omega

theorem targetExponent_ofFloat (h : 0 < (Binary.ofFloat x).significand) :
    Format.targetExponent .binary64
      (totalExponent (Binary.ofFloat x).significand (Binary.ofFloat x).scale) =
      (Binary.ofFloat x).scale := by
  obtain ⟨hhigh, -, hlow⟩ := ofFloat_bounds x
  have hlog : (Binary.ofFloat x).significand.log2 ≤ 52 := log2_le hhigh
  have htarget : Format.targetExponent .binary64
      (totalExponent (Binary.ofFloat x).significand (Binary.ofFloat x).scale) =
      max ((Binary.ofFloat x).significand.log2 + (Binary.ofFloat x).scale - 52) (-1074) := by
    simp only [Format.targetExponent, totalExponent, Format.mantissaBits, Format.minExponent]
    norm_num
    omega
  rw [htarget]
  rcases hlow with ⟨hlow, hscale⟩ | hscale
  · have hlog' : 52 ≤ (Binary.ofFloat x).significand.log2 := (Nat.le_log2 h.ne').mpr hlow
    omega
  · omega

/-- A positive double is the rounding of what its binary form stands for. -/
theorem rounds_ofFloat (h : Positive x) :
    Rounds ((Binary.ofFloat x).significand * 2 ^ (Binary.ofFloat x).scale) (parts x) := by
  obtain ⟨hm, hparts⟩ := parts_ofFloat h
  rw [hparts]
  exact rounds_of_canonical hm (targetExponent_ofFloat hm)

theorem value_exact (b : Binary) : b.exact.value = b.significand * 2 ^ b.scale := by
  rw [Binary.exact, value]
  split
  · next hscale =>
      obtain ⟨k, hk⟩ := Int.eq_ofNat_of_zero_le hscale
      rw [hk]
      simp
  · next hscale =>
      obtain ⟨k, hk⟩ : ∃ k : ℕ, b.scale = -k := ⟨(-b.scale).toNat, by omega⟩
      rw [hk]
      dsimp only
      rw [neg_neg, Int.toNat_natCast, zpow_neg, zpow_neg, zpow_natCast, zpow_natCast]
      have hten : (10 : ℚ) ^ k = 5 ^ k * 2 ^ k := by rw [← mul_pow]; norm_num
      rw [hten, Nat.pow_eq]
      push_cast
      field_simp

theorem digits_exact_pos {b : Binary} (h : 0 < b.significand) : 0 < b.exact.digits := by
  rw [Nat.pos_iff_ne_zero, ne_eq, ← value_eq_zero_iff, value_exact]
  positivity

theorem two_pow_le_ten_pow (j k : Nat) (h : j ≤ 3 * k) : (2 : ℚ) ^ j ≤ 10 ^ k :=
  calc (2 : ℚ) ^ j ≤ 2 ^ (3 * k) := pow_le_pow_right₀ one_le_two h
    _ = (2 ^ 3) ^ k := pow_mul _ _ _
    _ ≤ 10 ^ k := pow_le_pow_left₀ (by norm_num) (by norm_num) k

/-- The exact decimal of a double is in the range of doubles. -/
theorem log_value_exact (h : 0 < (Binary.ofFloat x).significand) :
    -400 ≤ Int.log 10 (Binary.ofFloat x).exact.value + 1 ∧
      Int.log 10 (Binary.ofFloat x).exact.value + 1 ≤ 400 := by
  obtain ⟨hsignificand, hscale, hleast⟩ := ofFloat_bounds x
  have hscale' : -1074 ≤ (Binary.ofFloat x).scale := by omega
  rw [value_exact]
  generalize (Binary.ofFloat x).significand = m at *
  generalize (Binary.ofFloat x).scale = e at *
  have hm : (1 : ℚ) ≤ m := by exact_mod_cast h
  have hm' : (m : ℚ) < 2 ^ 53 := by exact_mod_cast hsignificand
  have hpos : (0 : ℚ) < 2 ^ e := zpow_pos two_pos e
  have hlow : ((10 : ℕ) : ℚ) ^ (-(401 : ℕ) : ℤ) ≤ m * 2 ^ e :=
    calc ((10 : ℕ) : ℚ) ^ (-(401 : ℕ) : ℤ) = (10 ^ 401)⁻¹ := by
          rw [zpow_neg, zpow_natCast, Nat.cast_ofNat]
      _ ≤ (2 ^ 1074)⁻¹ := inv_anti₀ (by positivity) (two_pow_le_ten_pow 1074 401 (by decide))
      _ = 2 ^ (-(1074 : ℕ) : ℤ) := by rw [zpow_neg, zpow_natCast]
      _ ≤ 2 ^ e := zpow_le_zpow_right₀ one_le_two hscale'
      _ ≤ m * 2 ^ e := le_mul_of_one_le_left hpos.le hm
  have hhigh : m * 2 ^ e < ((10 : ℕ) : ℚ) ^ (400 : ℤ) :=
    calc m * (2 : ℚ) ^ e < 2 ^ 53 * 2 ^ e := mul_lt_mul_of_pos_right hm' hpos
      _ ≤ 2 ^ 53 * 2 ^ (972 : ℤ) :=
        mul_le_mul_of_nonneg_left (zpow_le_zpow_right₀ one_le_two hscale) (by positivity)
      _ = 2 ^ (53 + 972) := (pow_add _ _ _).symm
      _ ≤ 10 ^ 400 := two_pow_le_ten_pow 1025 400 (by decide)
  have hvalue : 0 < m * (2 : ℚ) ^ e := by positivity
  rw [Int.zpow_le_iff_le_log (by norm_num) hvalue] at hlow
  rw [Int.lt_zpow_iff_log_lt (by norm_num) hvalue] at hhigh
  omega

/-- The exact decimal reads back. -/
theorem toFloat_exact (h : Positive x) : (Binary.ofFloat x).exact.toFloat = x := by
  obtain ⟨hm, -⟩ := parts_ofFloat h
  have hpos := digits_exact_pos hm
  obtain ⟨hlow, hhigh⟩ := log_value_exact hm
  rw [log_value hpos] at hlow hhigh
  obtain ⟨u, hu, hfloat⟩ := rounds_toFloat hpos hlow hhigh
  rw [value_exact] at hu
  rw [hfloat, hu.unique (rounds_ofFloat h), pack_parts]

/-- What is found on a grid is there because it reads back. -/
theorem toFloat_of_onGrid {n : Nat} {d : Decimal} (h : onGrid x n = some d) : d.toFloat = x := by
  simp only [onGrid] at h
  apply Float.toBits_inj.mp
  apply eq_of_beq
  split at h
  · next hbelow habove =>
      cases h
      split
      · exact hbelow
      · exact habove
  · next hbelow _ =>
      cases h
      exact hbelow
  · next _ habove =>
      cases h
      exact habove
  · cases h

theorem value_trim (fuel : Nat) (d : Decimal) : (trim fuel d).value = d.value := by
  induction fuel generalizing d with
  | zero => rfl
  | succ fuel ih =>
      rw [trim]
      split
      · next h =>
          have hdigits : d.digits = d.digits / 10 * 10 := by omega
          rw [ih, value, value, zpow_add_one₀ (by norm_num)]
          conv_rhs => rw [hdigits]
          push_cast
          ring
      · rfl

/-- The fewest digits of a positive double read back. -/
theorem toFloat_shortest (h : Positive x) : (shortest x).toFloat = x := by
  rw [shortest, toFloat_eq_of_value_eq (value_trim _ _)]
  cases hfound : (List.range 17).findSome? fun i => onGrid x (i + 1) with
  | none => exact toFloat_exact h
  | some d =>
      obtain ⟨n, -, hn⟩ := List.exists_of_findSome?_eq_some hfound
      exact toFloat_of_onGrid hn

end Neologism.Decimal
