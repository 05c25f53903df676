import Neologism.Proofs.Doubles

/-! # Rounding and packing

How a mantissa and an exponent become a double. A mantissa that is long enough is cut to 53 bits,
and nothing is lost if the bits that are cut off are zeros. A result with 53 bits is packed as it
is, or as infinity where its exponent is too large.

Main statements: `roundWithAccuracy_normal` for the rounding, and `unpack_pack_normal` and
`unpack_pack_overflow` for the packing. -/

namespace Neologism.Doubles

open Float.Model UnpackedFloat

/-- A positive number with all 53 bits of a mantissa. -/
def Normal (u : UnpackedFloat) (m : Nat) (e : Int) : Prop :=
  ∃ h, u = .finite .positive m e h ∧ 2 ^ 52 ≤ m ∧ m < 2 ^ 53

namespace Normal

variable {u : UnpackedFloat} {m m' : Nat} {e e' : Int}

theorem le (h : Normal u m e) : 2 ^ 52 ≤ m :=
  h.choose_spec.2.1

theorem log2_eq (h : Normal u m e) : m.log2 = 52 := by
  obtain ⟨hpos, -, hlow, hhigh⟩ := h
  exact (Nat.log2_eq_iff hpos.ne').mpr ⟨hlow, hhigh⟩

theorem unique (h : Normal u m e) (h' : Normal u m' e') : m = m' ∧ e = e' := by
  obtain ⟨hpos, rfl, -⟩ := h
  obtain ⟨hpos', heq, -⟩ := h'
  exact ⟨(UnpackedFloat.finite.inj heq).2.1, (UnpackedFloat.finite.inj heq).2.2⟩

end Normal

theorem log2_le {n : Nat} (hn : n < 2 ^ 53) : n.log2 ≤ 52 := by
  rcases Nat.eq_zero_or_pos n with rfl | hpos
  · simp
  · exact Nat.le_of_lt_succ ((Nat.log2_lt hpos.ne').mpr hn)

theorem log2_mul_two_pow {n : Nat} (hn : n ≠ 0) (k : Nat) : (n * 2 ^ k).log2 = n.log2 + k := by
  rw [Nat.log2_eq_iff (by positivity)]
  constructor
  · rw [pow_add]
    exact Nat.mul_le_mul_right _ (Nat.log2_self_le hn)
  · rw [show n.log2 + k + 1 = n.log2 + 1 + k by omega, pow_add]
    exact Nat.mul_lt_mul_of_pos_right Nat.lt_log2_self (Nat.two_pow_pos k)

theorem mantissa_shiftRight (em : ExtendedMantissa) (d : Nat) :
    (em >>> d).mantissa = em.mantissa / 2 ^ d := by
  induction d with
  | zero => rw [pow_zero, Nat.div_one]; rfl
  | succ d ih =>
      have hstep : em >>> (d + 1) = (em >>> d).shiftRightOne := rfl
      rw [hstep, ExtendedMantissa.shiftRightOne, ih, Nat.div_div_eq_div_mul, pow_succ]

/-- Zeros that are shifted out leave no trace. -/
theorem shiftRight_mul_two_pow (q d : Nat) :
    (⟨q * 2 ^ d, false, false⟩ : ExtendedMantissa) >>> d = ⟨q, false, false⟩ := by
  induction d generalizing q with
  | zero => rw [pow_zero, Nat.mul_one]; rfl
  | succ d ih =>
      have hstep (em : ExtendedMantissa) : em >>> (d + 1) = (em >>> d).shiftRightOne := rfl
      rw [hstep, pow_succ', ← Nat.mul_assoc, ih]
      simp [ExtendedMantissa.shiftRightOne]

theorem roundedMantissa_bounds (em : ExtendedMantissa) :
    em.mantissa ≤ em.roundedMantissa ∧ em.roundedMantissa ≤ em.mantissa + 1 := by
  obtain ⟨m, r, s⟩ := em
  cases r <;> cases s <;>
    simp only [ExtendedMantissa.roundedMantissa, ExtendedMantissa.accuracy,
      Accuracy.roundToNearestEven] <;> omega

theorem targetExponent_eq {M : Nat} {e : Int} (hM : 52 ≤ M.log2)
    (he : -1074 ≤ e + (M.log2 - 52 : Nat)) :
    Format.targetExponent .binary64 (totalExponent M e) = e + (M.log2 - 52 : Nat) := by
  simp only [Format.targetExponent, totalExponent, Format.mantissaBits, Format.minExponent]
  norm_num
  omega

/-- A mantissa of 53 bits or more is shifted to 53 bits. -/
theorem shiftToTargetExponent_eq {M : Nat} {e : Int} (hM : 52 ≤ M.log2)
    (he : -1074 ≤ e + (M.log2 - 52 : Nat)) :
    shiftToTargetExponent .binary64 M e .exact =
      ((⟨M, false, false⟩ : ExtendedMantissa) >>> (M.log2 - 52), e + (M.log2 - 52 : Nat)) := by
  have hshift : (e + (M.log2 - 52 : Nat) - e).toNat = M.log2 - 52 := by omega
  simp only [shiftToTargetExponent, shiftToExponent, targetExponent_eq hM he, hshift,
    ExtendedMantissa.ofMantissaAndAccuracy]

theorem roundWithAccuracy_eq {M : Nat} {e e₁ e₂ : Int} {em₁ em₂ : ExtendedMantissa}
    (h₁ : shiftToTargetExponent .binary64 M e .exact = (em₁, e₁))
    (h₂ : shiftToTargetExponent .binary64 em₁.roundedMantissa e₁ .exact = (em₂, e₂))
    (hpos : 0 < em₂.mantissa) :
    roundWithAccuracy .binary64 .positive M e .exact = .finite .positive em₂.mantissa e₂ hpos := by
  simp only [roundWithAccuracy, h₁, h₂, dif_neg hpos.ne']

/-- A mantissa that was rounded up to one bit too many is halved. -/
theorem shiftToTargetExponent_rounded {r : Nat} {e : Int} (hlow : 2 ^ 52 ≤ r) (hhigh : r ≤ 2 ^ 53)
    (he : -1074 ≤ e) :
    ∃ m e', shiftToTargetExponent .binary64 r e .exact = (⟨m, false, false⟩, e') ∧
      2 ^ 52 ≤ m ∧ m < 2 ^ 53 ∧ e ≤ e' ∧ (r < 2 ^ 53 → m = r ∧ e' = e) := by
  rcases Nat.lt_or_eq_of_le hhigh with hlt | rfl
  · have hlog : r.log2 = 52 := (Nat.log2_eq_iff (by omega)).mpr ⟨hlow, hlt⟩
    have hd : r.log2 - 52 = 0 := by omega
    refine ⟨r, e, ?_, hlow, hlt, le_rfl, fun _ => ⟨rfl, rfl⟩⟩
    rw [shiftToTargetExponent_eq hlog.ge (by omega), hd, Int.natCast_zero, add_zero]
    rfl
  · have hlog : (2 ^ 53).log2 = 53 := Nat.log2_two_pow
    have hd : (2 ^ 53).log2 - 52 = 1 := by omega
    refine ⟨2 ^ 52, e + 1, ?_, le_rfl, by norm_num, by omega, fun h => absurd h (lt_irrefl _)⟩
    rw [shiftToTargetExponent_eq (by omega) (by omega), hd]
    rfl

/-- A mantissa of 53 bits or more is rounded to 53 bits, and to its first 53 bits if the others are
zeros. -/
theorem roundWithAccuracy_normal {M : Nat} {e : Int} (hM : 52 ≤ M.log2)
    (he : -1074 ≤ e + (M.log2 - 52 : Nat)) :
    ∃ m e', Normal (roundWithAccuracy .binary64 .positive M e .exact) m e' ∧
      e + (M.log2 - 52 : Nat) ≤ e' ∧
        ∀ q, M = q * 2 ^ (M.log2 - 52) → m = q ∧ e' = e + (M.log2 - 52 : Nat) := by
  set d := M.log2 - 52 with hd
  have hM0 : M ≠ 0 := by
    rintro rfl
    simp at hM
  have hpow : 2 ^ M.log2 = 2 ^ 52 * 2 ^ d := by rw [← pow_add, hd, Nat.add_sub_cancel' hM]
  have hlow : 2 ^ 52 ≤ M / 2 ^ d := by
    rw [Nat.le_div_iff_mul_le (Nat.two_pow_pos _), ← hpow]
    exact Nat.log2_self_le hM0
  have hhigh : M / 2 ^ d < 2 ^ 53 := by
    rw [Nat.div_lt_iff_lt_mul (Nat.two_pow_pos _)]
    calc M < 2 ^ (M.log2 + 1) := Nat.lt_log2_self
      _ = 2 ^ 53 * 2 ^ d := by rw [pow_succ, hpow]; ring
  have hfirst := shiftToTargetExponent_eq hM he
  have hbounds := roundedMantissa_bounds ((⟨M, false, false⟩ : ExtendedMantissa) >>> d)
  rw [mantissa_shiftRight] at hbounds
  obtain ⟨m, e', hsecond, hm, hm', hle, hsame⟩ := shiftToTargetExponent_rounded
    (hlow.trans hbounds.1) (hbounds.2.trans hhigh) he
  have hpos : 0 < (⟨m, false, false⟩ : ExtendedMantissa).mantissa :=
    Nat.lt_of_lt_of_le (Nat.two_pow_pos _) hm
  refine ⟨m, e', ⟨hpos, roundWithAccuracy_eq hfirst hsecond hpos, hm, hm'⟩, hle, fun q hq => ?_⟩
  have hround : ((⟨M, false, false⟩ : ExtendedMantissa) >>> d).roundedMantissa = q := by
    rw [hq, shiftRight_mul_two_pow]
    rfl
  have hq' : M / 2 ^ d = q := by rw [hq, Nat.mul_div_cancel _ (Nat.two_pow_pos _)]
  rw [hround] at hsame
  exact hsame (hq' ▸ hhigh)

theorem round_of_le {M : Nat} {e : Int} (hM : 52 ≤ M.log2) (he : -1074 ≤ e + (M.log2 - 52 : Nat)) :
    UnpackedFloat.round .binary64 .positive M e =
      roundWithAccuracy .binary64 .positive M e .exact := by
  have hshift : (e - (e + (M.log2 - 52 : Nat))).toNat = 0 := by omega
  simp only [UnpackedFloat.round, targetExponent_eq hM he, decreaseExponent, hshift,
    Nat.shiftLeft_zero, Int.natCast_zero, sub_zero]

/-- A natural number below `2 ^ 53` gets zeros behind it until it has 53 bits. -/
theorem round_nat {n : Nat} (hpos : 0 < n) (hn : n < 2 ^ 53) :
    Normal (UnpackedFloat.round .binary64 .positive n 0) (n * 2 ^ (52 - n.log2)) (n.log2 - 52) := by
  have hlog : n.log2 ≤ 52 := log2_le hn
  have htarget : Format.targetExponent .binary64 (totalExponent n 0) = n.log2 - 52 := by
    simp only [Format.targetExponent, totalExponent, Format.mantissaBits, Format.minExponent]
    norm_num
    omega
  have hshift : (0 - (n.log2 - 52 : Int)).toNat = 52 - n.log2 := by omega
  have hlow : 2 ^ 52 ≤ n * 2 ^ (52 - n.log2) := by
    calc 2 ^ 52 = 2 ^ n.log2 * 2 ^ (52 - n.log2) := by rw [← pow_add, Nat.add_sub_cancel' hlog]
      _ ≤ n * 2 ^ (52 - n.log2) := Nat.mul_le_mul_right _ (Nat.log2_self_le hpos.ne')
  have hhigh : n * 2 ^ (52 - n.log2) < 2 ^ 53 := by
    calc n * 2 ^ (52 - n.log2) < 2 ^ (n.log2 + 1) * 2 ^ (52 - n.log2) :=
          Nat.mul_lt_mul_of_pos_right Nat.lt_log2_self (Nat.two_pow_pos _)
      _ = 2 ^ 53 := by rw [← pow_add]; congr 1; omega
  have hlog' : (n * 2 ^ (52 - n.log2)).log2 = 52 :=
    (Nat.log2_eq_iff (by omega)).mpr ⟨hlow, hhigh⟩
  have hround : UnpackedFloat.round .binary64 .positive n 0 =
      roundWithAccuracy .binary64 .positive (n * 2 ^ (52 - n.log2)) (n.log2 - 52) .exact := by
    simp only [UnpackedFloat.round, htarget, decreaseExponent, hshift, Nat.shiftLeft_eq]
    congr 1
    omega
  obtain ⟨m, e', hnormal, -, hexact⟩ := roundWithAccuracy_normal (M := n * 2 ^ (52 - n.log2))
    (e := n.log2 - 52) hlog'.ge (by omega)
  obtain ⟨rfl, rfl⟩ := hexact (n * 2 ^ (52 - n.log2)) (by rw [hlog', Nat.sub_self, pow_zero,
    Nat.mul_one])
  rw [hround]
  convert hnormal using 1
  rw [hlog']
  simp

theorem toNat_one_append {m : Nat} (hlow : 2 ^ 52 ≤ m) (hhigh : m < 2 ^ 53) :
    (1#1 ++ BitVec.ofNat 52 m).toNat = m := by
  have hmod : m % 2 ^ 52 = m - 2 ^ 52 := by
    rw [Nat.mod_eq_sub_mod hlow, Nat.mod_eq_of_lt (by omega)]
  rw [BitVec.toNat_append, BitVec.toNat_ofNat, BitVec.toNat_ofNat, hmod, Nat.pow_one, Nat.mod_succ,
    ← Nat.shiftLeft_add_eq_or_of_lt (by omega), Nat.one_shiftLeft]
  omega

/-- The exponent that is all ones is kept for what is infinite or undefined. -/
theorem ofNat_ne_neg_one {b : Nat} (hb : b < 2047) : BitVec.ofNat 11 b ≠ -1#11 := by
  intro heq
  have hnat := congrArg BitVec.toNat heq
  rw [BitVec.toNat_ofNat, Nat.mod_eq_of_lt (by omega)] at hnat
  change b = 2047 at hnat
  omega

theorem unpack_pack_normal {u : UnpackedFloat} {m : Nat} {e : Int} (h : Normal u m e)
    (hlow : -1074 ≤ e) (hhigh : e ≤ 971) : (Float.Model.pack u).unpack = u := by
  have hlog := h.log2_eq
  obtain ⟨hpos, rfl, hm, hm'⟩ := h
  obtain ⟨b, rfl⟩ : ∃ b : Nat, e = b - 1075 := ⟨(e + 1075).toNat, by omega⟩
  have hb : b % 2 ^ 11 = b := Nat.mod_eq_of_lt (by omega)
  have hpack : UnpackedFloat.pack .binary64 (.finite .positive m (b - 1075) hpos) =
      packComponents .binary64 .positive (BitVec.ofNat 11 b) (BitVec.ofNat 52 m) := by
    have hbiased : ((b : Int) - 1075 + (1023 : Nat) + (52 : Nat)).toNat = b := by omega
    have hbias : Format.exponentBias .binary64 = 1023 := rfl
    simp only [UnpackedFloat.pack, hbias, hbiased, hlog, Format.mantissaBits]
    rw [if_neg (by omega), if_pos trivial]
  have hinf : BitVec.ofNat 11 b ≠ -1#11 := ofNat_ne_neg_one (by omega)
  have hzero : BitVec.ofNat 11 b ≠ 0#11 := by
    intro heq
    have hnat := congrArg BitVec.toNat heq
    rw [BitVec.toNat_ofNat, hb] at hnat
    change b = 0 at hnat
    omega
  change UnpackedFloat.unpack .binary64 (UnpackedFloat.pack .binary64 _) = _
  rw [hpack]
  simp only [UnpackedFloat.unpack, unpackExponent_packComponents, unpackMantissa_packComponents,
    unpackSign_packComponents, Sign.ofBitVec_toBitVec]
  rw [if_neg hinf, if_neg hzero]
  simp only [toNat_one_append hm hm', BitVec.toNat_ofNat, hb]
  rfl

theorem unpack_pack_infinity (sign : Sign) :
    (Float.Model.pack (.infinity sign)).unpack = .infinity sign := by
  cases sign <;> rfl

/-- An exponent that is too large makes infinity. -/
theorem unpack_pack_overflow {u : UnpackedFloat} {m : Nat} {e : Int} (h : Normal u m e)
    (hhigh : 971 < e) : (Float.Model.pack u).unpack = .infinity .positive := by
  obtain ⟨hpos, rfl, hm, hm'⟩ := h
  have hpack : UnpackedFloat.pack .binary64 (.finite .positive m e hpos) =
      UnpackedFloat.pack .binary64 (.infinity .positive) := by
    have hbias : Format.exponentBias .binary64 = 1023 := rfl
    simp only [UnpackedFloat.pack, hbias]
    rw [if_pos (by omega)]
  have hmodel : Float.Model.pack (.finite .positive m e hpos) =
      Float.Model.pack (.infinity .positive) := by
    simp only [Float.Model.pack, hpack]
  rw [hmodel, unpack_pack_infinity]

end Neologism.Doubles
