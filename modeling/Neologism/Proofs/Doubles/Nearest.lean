import Neologism.Proofs.Doubles.Counting

/-! # Rounding is a function of the number

A positive number is rounded by writing it as a mantissa with an exponent and an accuracy, and it
has many such forms. The bits that are kept and the two that decide on the rounding are the same for
all of them, since they can be read off the number, so what is rounded to is the same too.

Main statements: `rounds_roundWithAccuracy`, `rounds_mul` and `rounds_div` say what results are
roundings of, `Rounds.unique` that a number has one rounding, and `rounds_of_canonical` that a
double is the rounding of itself. -/

namespace Neologism.Doubles

open Float.Model UnpackedFloat

/-- The mantissa is the whole part of the number, the round bit tells of its first half behind the
point, and the sticky bit of anything else there. -/
structure Describes (em : ExtendedMantissa) (q : ℚ) : Prop where
  le : em.mantissa ≤ q
  lt : q < em.mantissa + 1
  round : em.roundBit = true ↔ em.mantissa + 1 / 2 ≤ q
  sticky : em.stickyBit = true ↔ q ≠ em.mantissa ∧ q ≠ em.mantissa + 1 / 2

namespace Describes

variable {em em' : ExtendedMantissa} {q : ℚ}

theorem unique (h : Describes em q) (h' : Describes em' q) : em = em' := by
  have hle : (em.mantissa : ℚ) < em'.mantissa + 1 := h.le.trans_lt h'.lt
  have hge : (em'.mantissa : ℚ) < em.mantissa + 1 := h'.le.trans_lt h.lt
  norm_cast at hle hge
  have hmantissa : em.mantissa = em'.mantissa := by omega
  have hround := h.round
  have hsticky := h.sticky
  rw [hmantissa, ← h'.round] at hround
  rw [hmantissa, ← h'.sticky] at hsticky
  cases em
  cases em'
  simp only [ExtendedMantissa.mk.injEq]
  exact ⟨hmantissa, Bool.eq_iff_iff.mpr hround, Bool.eq_iff_iff.mpr hsticky⟩

/-- Either bit is set exactly if the number is more than its whole part. -/
theorem inexact (h : Describes em q) :
    (em.roundBit || em.stickyBit) = true ↔ q ≠ em.mantissa := by
  rw [Bool.or_eq_true, h.round, h.sticky]
  constructor
  · rintro (hround | ⟨hne, -⟩) heq
    · linarith
    · exact hne heq
  · intro hne
    by_cases hhalf : q = em.mantissa + 1 / 2
    · exact .inl hhalf.ge
    · exact .inr ⟨hne, hhalf⟩

/-- The bit that is shifted out becomes the round bit, and the round bit goes into the sticky
one. -/
theorem shiftRightOne (h : Describes em q) : Describes em.shiftRightOne (q / 2) := by
  have hsticky := h.inexact
  obtain ⟨hle, hlt⟩ := And.intro h.le h.lt
  rcases Nat.even_or_odd' em.mantissa with ⟨k, hk | hk⟩
  · have hshift : em.shiftRightOne = ⟨k, false, em.roundBit || em.stickyBit⟩ := by
      simp [ExtendedMantissa.shiftRightOne, hk]
    rw [hk] at hle hlt hsticky
    push_cast at hle hlt hsticky
    rw [hshift]
    constructor <;> dsimp only
    case le => linarith
    case lt => linarith
    case round => exact iff_of_false Bool.false_ne_true (by linarith)
    case sticky =>
      rw [hsticky, and_iff_left (by linarith : q / 2 < k + 1 / 2).ne]
      exact not_congr (by constructor <;> intro <;> linarith)
  · have hshift : em.shiftRightOne = ⟨k, true, em.roundBit || em.stickyBit⟩ := by
      simp [ExtendedMantissa.shiftRightOne, hk, Nat.mul_add_div]
    rw [hk] at hle hlt hsticky
    push_cast at hle hlt hsticky
    rw [hshift]
    constructor <;> dsimp only
    case le => linarith
    case lt => linarith
    case round => exact iff_of_true rfl (by linarith)
    case sticky =>
      rw [hsticky, and_iff_right (by linarith : (k : ℚ) < q / 2).ne']
      exact not_congr (by constructor <;> intro <;> linarith)

theorem shiftRight (h : Describes em q) (n : Nat) : Describes (em >>> n) (q / 2 ^ n) := by
  induction n with
  | zero =>
      rw [pow_zero, div_one]
      exact h
  | succ n ih =>
      have hstep : em >>> (n + 1) = (em >>> n).shiftRightOne := rfl
      rw [hstep, pow_succ, ← div_div]
      exact ih.shiftRightOne

end Describes

theorem describes_exact (m : Nat) : Describes (.ofMantissaAndAccuracy m .exact) m := by
  constructor <;> dsimp only [ExtendedMantissa.ofMantissaAndAccuracy]
  case le => exact le_rfl
  case lt => linarith
  case round => exact iff_of_false Bool.false_ne_true (by linarith)
  case sticky => exact iff_of_false Bool.false_ne_true fun h => h.1 rfl

/-- The accuracy of a quotient describes what is left over. -/
theorem describes_fraction {num den : Nat} (h : num < den) (m : Nat) :
    Describes (.ofMantissaAndAccuracy m (accuracyOfFraction num den)) (m + num / den) := by
  have hden : (0 : ℚ) < den := by exact_mod_cast Nat.zero_lt_of_lt h
  rcases Nat.eq_zero_or_pos num with rfl | hpos
  · simpa [accuracyOfFraction] using describes_exact m
  have hbits : ExtendedMantissa.ofMantissaAndAccuracy m (accuracyOfFraction num den) =
      ⟨m, decide (den ≤ 2 * num), decide (2 * num ≠ den)⟩ := by
    rw [accuracyOfFraction, if_neg hpos.ne']
    rcases Nat.lt_trichotomy (2 * num) den with hlt | heq | hgt
    · rw [Nat.compare_eq_lt.mpr hlt, decide_eq_false hlt.not_ge, decide_eq_true hlt.ne]
      rfl
    · rw [Nat.compare_eq_eq.mpr heq, decide_eq_true heq.ge, decide_eq_false (not_not.mpr heq)]
      rfl
    · rw [Nat.compare_eq_gt.mpr hgt, decide_eq_true hgt.le, decide_eq_true hgt.ne']
      rfl
  have hhalf : (1 : ℚ) / 2 ≤ num / den ↔ den ≤ 2 * num := by
    rw [div_le_div_iff₀ two_pos hden]
    norm_cast
    omega
  have hmiddle : (num : ℚ) / den = 1 / 2 ↔ 2 * num = den := by
    rw [div_eq_div_iff hden.ne' two_ne_zero]
    norm_cast
    omega
  have hfraction : (0 : ℚ) < num / den := div_pos (by exact_mod_cast hpos) hden
  have hone : (num : ℚ) / den < 1 := (div_lt_one hden).mpr (by exact_mod_cast h)
  rw [hbits]
  constructor <;> dsimp only
  case le => linarith
  case lt => linarith
  case round => rw [decide_eq_true_iff, ← hhalf, add_le_add_iff_left]
  case sticky =>
    rw [decide_eq_true_iff, ne_eq, ← hmiddle, ne_eq, ne_eq, add_right_inj,
      and_iff_right (by linarith : (m : ℚ) < m + num / den).ne']

/-- The exponent that a positive number is rounded to: it leaves 53 bits, or fewer for the least
numbers. -/
def lastPlace (q : ℚ) : ℤ :=
  max (Int.log 2 q - 52) (-1074)

theorem log_eq_of_bounds {b : Nat} (hb : 1 < b) {q : ℚ} {k : ℤ} (hlow : (b : ℚ) ^ k ≤ q)
    (hhigh : q < (b : ℚ) ^ (k + 1)) : Int.log b q = k := by
  have hpos : 0 < q := (zpow_pos (by exact_mod_cast Nat.zero_lt_of_lt hb) k).trans_le hlow
  apply le_antisymm
  · exact Int.lt_add_one_iff.mp ((Int.lt_zpow_iff_log_lt hb hpos).mp hhigh)
  · exact (Int.zpow_le_iff_le_log hb hpos).mp hlow

variable {m : Nat} {e : ℤ} {accuracy : Accuracy} {r : ℚ}

theorem mantissa_ofMantissaAndAccuracy (m : Nat) (accuracy : Accuracy) :
    (ExtendedMantissa.ofMantissaAndAccuracy m accuracy).mantissa = m := by
  rcases accuracy with _ | _ | _ | _ <;> rfl

/-- The exponent to shift to is read off the number, if the mantissa has no fewer bits than are
needed. -/
theorem targetExponent_eq_lastPlace (hr : Describes (.ofMantissaAndAccuracy m accuracy) r)
    (hpos : 0 < r) (he : e ≤ Format.targetExponent .binary64 (totalExponent m e)) :
    Format.targetExponent .binary64 (totalExponent m e) = lastPlace (r * 2 ^ e) := by
  have hle := hr.le
  have hlt := hr.lt
  rw [mantissa_ofMantissaAndAccuracy] at hle hlt
  have htarget : Format.targetExponent .binary64 (totalExponent m e) =
      max (m.log2 + e - 52) (-1074) := by
    simp only [Format.targetExponent, totalExponent, Format.mantissaBits, Format.minExponent]
    norm_num
    omega
  rw [htarget] at he ⊢
  rw [lastPlace]
  have hscale : (0 : ℚ) < 2 ^ e := zpow_pos two_pos e
  rcases Nat.eq_zero_or_pos m with rfl | hm
  · -- A number below the unit of the exponent is among the least ones.
    have hbelow : r * 2 ^ e < ((2 : Nat) : ℚ) ^ e := by
      rw [Nat.cast_zero, zero_add] at hlt
      exact mul_lt_of_lt_one_left hscale hlt
    have hlog := (Int.lt_zpow_iff_log_lt one_lt_two (mul_pos hpos hscale)).mp hbelow
    rw [Nat.log2_zero] at he ⊢
    omega
  · have hlog : Int.log 2 (r * 2 ^ e) = m.log2 + e := by
      apply log_eq_of_bounds one_lt_two <;> rw [Nat.cast_ofNat]
      · rw [zpow_add₀ two_ne_zero, zpow_natCast]
        have hlow : (2 : ℚ) ^ m.log2 ≤ m := by exact_mod_cast Nat.log2_self_le hm.ne'
        exact mul_le_mul_of_nonneg_right (hlow.trans hle) hscale.le
      · rw [add_right_comm, zpow_add₀ two_ne_zero]
        have hhigh : (m : ℚ) + 1 ≤ 2 ^ (m.log2 + 1 : ℤ) := by exact_mod_cast Nat.lt_log2_self
        exact mul_lt_mul_of_pos_right (hlt.trans_le hhigh) hscale
    rw [hlog]

/-- What a described mantissa at an exponent is rounded to. -/
def settled (em : ExtendedMantissa) (e : ℤ) : UnpackedFloat :=
  let second := shiftToTargetExponent .binary64 em.roundedMantissa e .exact
  if h : second.1.mantissa = 0 then .zero .positive
  else .finite .positive second.1.mantissa second.2 (Nat.pos_of_ne_zero h)

/-- The positive number is rounded to these parts. -/
def Rounds (q : ℚ) (u : UnpackedFloat) : Prop :=
  ∃ em, Describes em (q / 2 ^ lastPlace q) ∧ u = settled em (lastPlace q)

theorem Rounds.unique {q : ℚ} {u v : UnpackedFloat} (hu : Rounds q u) (hv : Rounds q v) :
    u = v := by
  obtain ⟨em, hem, rfl⟩ := hu
  obtain ⟨em', hem', rfl⟩ := hv
  rw [hem.unique hem']

theorem rounds_roundWithAccuracy (hr : Describes (.ofMantissaAndAccuracy m accuracy) r)
    (hpos : 0 < r) (he : e ≤ Format.targetExponent .binary64 (totalExponent m e)) :
    Rounds (r * 2 ^ e) (roundWithAccuracy .binary64 .positive m e accuracy) := by
  have htarget := targetExponent_eq_lastPlace hr hpos he
  rw [htarget] at he
  obtain ⟨d, hd⟩ := Int.le.dest he
  have hshift : (lastPlace (r * 2 ^ e) - e).toNat = d := by omega
  have hexponent : e + (d : ℤ) = lastPlace (r * 2 ^ e) := hd
  have hfirst : shiftToTargetExponent .binary64 m e accuracy =
      (ExtendedMantissa.ofMantissaAndAccuracy m accuracy >>> d, lastPlace (r * 2 ^ e)) := by
    simp only [shiftToTargetExponent, htarget, shiftToExponent, hshift, hexponent]
  refine ⟨ExtendedMantissa.ofMantissaAndAccuracy m accuracy >>> d, ?_, ?_⟩
  · have hplace : r * 2 ^ e / 2 ^ lastPlace (r * 2 ^ e) = r / 2 ^ d := by
      rw [← hexponent, zpow_add₀ two_ne_zero, zpow_natCast, mul_comm r,
        mul_div_mul_left _ _ (zpow_pos two_pos e).ne']
    rw [hplace]
    exact hr.shiftRight d
  · simp only [roundWithAccuracy, hfirst]
    rfl

/-- Parts that need no rounding are the rounding of their number. -/
theorem rounds_of_canonical (h : 0 < m)
    (he : Format.targetExponent .binary64 (totalExponent m e) = e) :
    Rounds (m * 2 ^ e) (.finite .positive m e h) := by
  have hshift : shiftToTargetExponent .binary64 m e .exact = (⟨m, false, false⟩, e) := by
    simp only [shiftToTargetExponent, he, shiftToExponent, sub_self]
    exact Prod.ext rfl (add_zero e)
  rw [← roundWithAccuracy_eq hshift hshift h]
  exact rounds_roundWithAccuracy (describes_exact m) (by exact_mod_cast h) he.ge

theorem rounds_mul {m₁ m₂ : Nat} {e₁ e₂ : ℤ} (h₁ : 0 < m₁) (h₂ : 0 < m₂)
    (hlog : 52 ≤ (m₁ * m₂).log2) :
    Rounds (m₁ * 2 ^ e₁ * (m₂ * 2 ^ e₂))
      (UnpackedFloat.mul .binary64 (.finite .positive m₁ e₁ h₁) (.finite .positive m₂ e₂ h₂)) := by
  have hvalue : (m₁ : ℚ) * 2 ^ e₁ * (m₂ * 2 ^ e₂) = (m₁ * m₂ : Nat) * 2 ^ (e₁ + e₂) := by
    rw [zpow_add₀ two_ne_zero]
    push_cast
    ring
  rw [hvalue]
  refine rounds_roundWithAccuracy (describes_exact _) (by exact_mod_cast Nat.mul_pos h₁ h₂) ?_
  simp only [Format.targetExponent, totalExponent, Format.mantissaBits]
  omega

theorem rounds_div {m₁ m₂ : Nat} {e₁ e₂ : ℤ} (h₁ : 0 < m₁) (h₂ : 0 < m₂) :
    Rounds (m₁ * 2 ^ e₁ / (m₂ * 2 ^ e₂))
      (UnpackedFloat.div .binary64 (.finite .positive m₁ e₁ h₁) (.finite .positive m₂ e₂ h₂)) := by
  -- The dividend gets as many zeros behind it as the quotient needs.
  obtain ⟨t, ht⟩ : ∃ t, t = min (e₁ - e₂)
    (Format.targetExponent .binary64 (totalExponent m₁ e₁ - totalExponent m₂ e₂)) := ⟨_, rfl⟩
  obtain ⟨d, hd⟩ := Int.le.dest (ht.trans_le (min_le_left _ _))
  have hshift : (e₁ - e₂ - t).toNat = d := by omega
  have hdiv : UnpackedFloat.div .binary64 (.finite .positive m₁ e₁ h₁)
      (.finite .positive m₂ e₂ h₂) = roundWithAccuracy .binary64 .positive (m₁ * 2 ^ d / m₂) t
        (accuracyOfFraction (m₁ * 2 ^ d % m₂) m₂) := by
    simp only [UnpackedFloat.div, divCore, ← ht, hshift, Nat.shiftLeft_eq]
    rfl
  have hm₂ : (0 : ℚ) < m₂ := by exact_mod_cast h₂
  have hquotient : ((m₁ * 2 ^ d / m₂ : Nat) : ℚ) + (m₁ * 2 ^ d % m₂ : Nat) / m₂ =
      m₁ * 2 ^ d / m₂ := by
    rw [eq_div_iff hm₂.ne', add_mul, div_mul_cancel₀ _ hm₂.ne']
    exact_mod_cast Nat.div_add_mod' (m₁ * 2 ^ d) m₂
  have hvalue : (m₁ : ℚ) * 2 ^ e₁ / (m₂ * 2 ^ e₂) = m₁ * 2 ^ d / m₂ * 2 ^ t := by
    have hexponent : e₁ = d + t + e₂ := by omega
    rw [hexponent, zpow_add₀ two_ne_zero, zpow_add₀ two_ne_zero, zpow_natCast]
    have hscale : (0 : ℚ) < 2 ^ e₂ := zpow_pos two_pos e₂
    field_simp
  rw [hdiv, hvalue, ← hquotient]
  refine rounds_roundWithAccuracy (describes_fraction (Nat.mod_lt _ h₂) _) ?_ ?_
  · rw [hquotient]
    positivity
  · by_cases hleast : t ≤ -1074
    · exact hleast.trans (le_max_right _ _)
    have hplaces : 53 + m₂.log2 ≤ m₁.log2 + d := by
      simp only [Format.targetExponent, totalExponent, Format.mantissaBits,
        Format.minExponent] at ht
      norm_num at ht
      omega
    have hlow : 2 ^ 52 ≤ m₁ * 2 ^ d / m₂ := by
      rw [Nat.le_div_iff_mul_le h₂]
      calc 2 ^ 52 * m₂ ≤ 2 ^ 52 * 2 ^ (m₂.log2 + 1) :=
            Nat.mul_le_mul_left _ Nat.lt_log2_self.le
        _ = 2 ^ (53 + m₂.log2) := by rw [← pow_add]; congr 1; omega
        _ ≤ 2 ^ (m₁.log2 + d) := Nat.pow_le_pow_right two_pos hplaces
        _ = 2 ^ m₁.log2 * 2 ^ d := pow_add _ _ _
        _ ≤ m₁ * 2 ^ d := Nat.mul_le_mul_right _ (Nat.log2_self_le h₁.ne')
    have hbits : 52 ≤ (m₁ * 2 ^ d / m₂).log2 := (Nat.le_log2 (by omega)).mpr hlow
    simp only [Format.targetExponent, totalExponent, Format.mantissaBits]
    omega

end Neologism.Doubles
