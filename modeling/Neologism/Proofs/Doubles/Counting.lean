import Neologism.Proofs.Doubles.Rounding

/-! # Counting with doubles

Doubles count exactly as long as the numbers are below `2 ^ 53`. Beyond that they are rounded, but
a number that has reached `2 ^ 53` never falls below it again by adding. So a sum that ends below
`2 ^ 53` was exact all the way.

Main statements: `Counts.add` and `counts_mul`, and `Counts.unique` for a result below
`2 ^ 53`. -/

namespace Neologism.Doubles

open Float.Model UnpackedFloat

/-- The double next to a natural number. -/
def ofNat (n : Nat) : Weight :=
  .ofModel (.ofNat n)

theorem parts_ofNat_zero : parts (ofNat 0) = .zero .positive :=
  rfl

theorem parts_ofNat {n : Nat} (hpos : 0 < n) (hn : n < 2 ^ 53) :
    Normal (parts (ofNat n)) (n * 2 ^ (52 - n.log2)) (n.log2 - 52) := by
  have hlog : n.log2 ≤ 52 := log2_le hn
  have hround := round_nat hpos hn
  have hmodel : UnpackedFloat.ofNat .binary64 n = UnpackedFloat.round .binary64 .positive n 0 := by
    have hcompare : compare (n : Int) 0 = .gt := Int.compare_eq_gt.mpr (by omega)
    simp only [UnpackedFloat.ofNat, UnpackedFloat.ofInt, UnpackedFloat.normalize, hcompare,
      Int.toNat_natCast]
  rw [parts, ofNat, Float.Model.ofNat, hmodel, unpack_pack_normal hround (by omega) (by omega)]
  exact hround

/-- The whole number that a double is cut to. -/
def count (x : Weight) : Nat :=
  match parts x with
  | .finite _ m e _ => m * 2 ^ e.toNat / 2 ^ (-e).toNat
  | _ => 0

theorem count_ofNat {n : Nat} (hn : n < 2 ^ 53) : count (ofNat n) = n := by
  rcases Nat.eq_zero_or_pos n with rfl | hpos
  · rfl
  · obtain ⟨_, hparts, -⟩ := parts_ofNat hpos hn
    have hlog : n.log2 ≤ 52 := log2_le hn
    have he : (n.log2 - 52 : Int).toNat = 0 := by omega
    have he' : (-(n.log2 - 52 : Int)).toNat = 52 - n.log2 := by omega
    simp only [count, hparts, he, he', pow_zero, Nat.mul_one]
    exact Nat.mul_div_cancel _ (Nat.two_pow_pos _)

/-- The double is a natural number below `2 ^ 53`. -/
def Natural (x : Weight) : Prop :=
  count x < 2 ^ 53 ∧ x = ofNat (count x)

instance (x : Weight) : Decidable (Natural x) :=
  inferInstanceAs (Decidable (count x < 2 ^ 53 ∧ x = ofNat (count x)))

theorem natural_ofNat {n : Nat} (hn : n < 2 ^ 53) : Natural (ofNat n) := by
  rw [Natural, count_ofNat hn]
  exact ⟨hn, rfl⟩

/-- The double is a number from `2 ^ 53` on, or infinity. -/
def Large (x : Weight) : Prop :=
  parts x = .infinity .positive ∨ ∃ m e, Normal (parts x) m e ∧ 1 ≤ e

/-- The double is the natural number, or both are at least `2 ^ 53`. -/
structure Counts (x : Weight) (n : Nat) : Prop where
  small : n < 2 ^ 53 → x = ofNat n
  large : 2 ^ 53 ≤ n → Large x

theorem not_large_ofNat {n : Nat} (hn : n < 2 ^ 53) : ¬ Large (ofNat n) := by
  rintro (hinf | ⟨m, e, hnormal, he⟩)
  · rcases Nat.eq_zero_or_pos n with rfl | hpos
    · rw [parts_ofNat_zero] at hinf
      cases hinf
    · obtain ⟨_, heq, -⟩ := parts_ofNat hpos hn
      rw [heq] at hinf
      cases hinf
  · rcases Nat.eq_zero_or_pos n with rfl | hpos
    · obtain ⟨_, heq, -⟩ := hnormal
      rw [parts_ofNat_zero] at heq
      cases heq
    · have hlog : n.log2 ≤ 52 := log2_le hn
      have := ((parts_ofNat hpos hn).unique hnormal).2
      omega

theorem counts_of_large {x : Weight} {n : Nat} (h : Large x) (hn : 2 ^ 53 ≤ n) : Counts x n :=
  ⟨fun hlt => absurd hn (not_le.mpr hlt), fun _ => h⟩

theorem Natural.counts {x : Weight} (h : Natural x) : Counts x (count x) :=
  ⟨fun _ => h.2, fun hle => absurd h.1 (not_lt.mpr hle)⟩

/-- A natural double counts its own number only. -/
theorem Counts.eq_count {x : Weight} {n : Nat} (h : Counts x n) (hx : Natural x) :
    n = count x := by
  by_cases hn : n < 2 ^ 53
  · rw [h.small hn, count_ofNat hn]
  · have hlarge := h.large (not_lt.mp hn)
    rw [hx.2] at hlarge
    exact absurd hlarge (not_large_ofNat hx.1)

/-- A small number is the only one that a double counts. -/
theorem Counts.unique {x : Weight} {n m : Nat} (h : Counts x n) (hn : n < 2 ^ 53)
    (h' : Counts x m) : m = n := by
  obtain rfl := h.small hn
  rw [h'.eq_count (natural_ofNat hn), count_ofNat hn]

/-- What is at least `2 ^ 53` stays so when it is rounded. -/
theorem large_roundWithAccuracy {M : Nat} {e : Int} (hM : 52 ≤ M.log2) (he : 53 ≤ e + M.log2) :
    Large (.ofModel (.pack (roundWithAccuracy .binary64 .positive M e .exact))) := by
  obtain ⟨m, e', hnormal, hle, -⟩ := roundWithAccuracy_normal (e := e) hM (by omega)
  generalize roundWithAccuracy .binary64 .positive M e .exact = u at hnormal ⊢
  by_cases hhigh : e' ≤ 971
  · have hparts : parts (.ofModel (.pack u)) = u := unpack_pack_normal hnormal (by omega) hhigh
    exact .inr ⟨m, e', by rwa [hparts], by omega⟩
  · exact .inl (unpack_pack_overflow hnormal (by omega))

/-- A mantissa and an exponent whose value is a natural number are rounded to it. -/
theorem counts_roundWithAccuracy {n k : Nat} (hpos : 0 < n) (hM : 52 ≤ (n * 2 ^ k).log2) :
    Counts (.ofModel (.pack (roundWithAccuracy .binary64 .positive (n * 2 ^ k) (-k) .exact)))
      n := by
  have hlog := log2_mul_two_pow hpos.ne' k
  constructor
  case large =>
    intro hn
    have hlog' : 53 ≤ n.log2 := (Nat.le_log2 hpos.ne').mpr hn
    exact large_roundWithAccuracy hM (by omega)
  case small =>
    intro hn
    have hlog' : n.log2 ≤ 52 := log2_le hn
    obtain ⟨m, e, hnormal, -, hexact⟩ := roundWithAccuracy_normal (e := -k) hM (by omega)
    obtain ⟨rfl, rfl⟩ := hexact (n * 2 ^ (52 - n.log2)) (by
      rw [Nat.mul_assoc, ← pow_add, hlog]
      congr 2
      omega)
    generalize roundWithAccuracy .binary64 .positive (n * 2 ^ k) (-k) .exact = u at hnormal ⊢
    have hparts : parts (.ofModel (.pack u)) = u := unpack_pack_normal hnormal (by omega) (by omega)
    obtain ⟨_, hofNat, -⟩ := parts_ofNat hpos hn
    obtain ⟨_, hu, -⟩ := hnormal
    apply eq_of_parts_eq
    rw [hparts, hu, hofNat]
    congr 1
    omega

/-- The mantissas of two numbers are added at the lower exponent, and the sum is rounded. -/
theorem add_normal {x y : Weight} {m₁ m₂ : Nat} {e₁ e₂ : Int} (hx : Normal (parts x) m₁ e₁)
    (hy : Normal (parts y) m₂ e₂) (hlow : -1074 ≤ min e₁ e₂) :
    let M := m₁ * 2 ^ (e₁ - min e₁ e₂).toNat + m₂ * 2 ^ (e₂ - min e₁ e₂).toNat
    52 ≤ M.log2 ∧
      x + y = .ofModel (.pack (roundWithAccuracy .binary64 .positive M (min e₁ e₂) .exact)) := by
  intro M
  obtain ⟨hpos₁, hx, hm₁, -⟩ := hx
  obtain ⟨hpos₂, hy, hm₂, -⟩ := hy
  have hM : 2 ^ 52 ≤ M := hm₁.trans ((Nat.le_mul_of_pos_right _ (Nat.two_pow_pos _)).trans
    (Nat.le_add_right _ _))
  have hlog : 52 ≤ M.log2 := (Nat.le_log2 (by omega)).mpr hM
  have hadd : x + y = .ofModel (.pack (.add .binary64 (parts x) (parts y))) := rfl
  have hsum : Sign.positive.apply (m₁ * 2 ^ (e₁ - min e₁ e₂).toNat : Nat) +
      Sign.positive.apply (m₂ * 2 ^ (e₂ - min e₁ e₂).toNat : Nat) = (M : Int) := by
    simp [Sign.apply, M]
  have hcompare : compare (M : Int) 0 = .gt := Int.compare_eq_gt.mpr (by omega)
  refine ⟨hlog, ?_⟩
  rw [hadd, hx, hy]
  simp only [UnpackedFloat.add, decreaseExponent, Nat.shiftLeft_eq]
  rw [hsum]
  simp only [UnpackedFloat.normalize, hcompare, Int.toNat_natCast]
  rw [round_of_le hlog (by omega)]

theorem unpacked_zero_add {u : UnpackedFloat} (h : u ≠ .zero .negative) :
    UnpackedFloat.add .binary64 (.zero .positive) u = u := by
  cases u with
  | zero sign =>
      cases sign with
      | positive => rfl
      | negative => exact absurd rfl h
  | notANumber | infinity sign | finite sign m e hpos => rfl

theorem unpacked_add_zero {u : UnpackedFloat} (h : u ≠ .zero .negative) :
    UnpackedFloat.add .binary64 u (.zero .positive) = u := by
  cases u with
  | zero sign =>
      cases sign with
      | positive => rfl
      | negative => exact absurd rfl h
  | notANumber | infinity sign | finite sign m e hpos => rfl

/-- A double that counts is zero, infinite, or made of a mantissa and an exponent whose value is the
number, or is at least `2 ^ 53`. -/
theorem Counts.cases {x : Weight} {n : Nat} (h : Counts x n) :
    (n = 0 ∧ parts x = .zero .positive) ∨
      (2 ^ 53 ≤ n ∧ parts x = .infinity .positive) ∨
        0 < n ∧ ∃ m e, Normal (parts x) m e ∧ -1074 ≤ e ∧
          ((∃ k : Nat, e = -k ∧ m = n * 2 ^ k) ∨ 2 ^ 53 ≤ n ∧ 1 ≤ e) := by
  by_cases hn : n < 2 ^ 53
  · obtain rfl := h.small hn
    rcases Nat.eq_zero_or_pos n with rfl | hpos
    · exact .inl ⟨rfl, parts_ofNat_zero⟩
    · have hlog : n.log2 ≤ 52 := log2_le hn
      refine .inr (.inr ⟨hpos, _, _, parts_ofNat hpos hn, by omega, .inl ⟨52 - n.log2, ?_, rfl⟩⟩)
      omega
  · rcases h.large (not_lt.mp hn) with hinf | ⟨m, e, hnormal, he⟩
    · exact .inr (.inl ⟨not_lt.mp hn, hinf⟩)
    · exact .inr (.inr ⟨by omega, m, e, hnormal, by omega, .inr ⟨not_lt.mp hn, he⟩⟩)

theorem Counts.parts_ne {x : Weight} {n : Nat} (h : Counts x n) : parts x ≠ .zero .negative := by
  intro hzero
  rcases h.cases with ⟨-, hparts⟩ | ⟨-, hparts⟩ | ⟨-, m, e, ⟨hpos, hparts, -⟩, -⟩
  all_goals
    rw [hparts] at hzero
    cases hzero

/-- An infinite summand makes the sum infinite. -/
theorem large_add_of_infinity {x y : Weight} {b : Nat} (hx : parts x = .infinity .positive)
    (hy : Counts y b) : Large (x + y) ∧ Large (y + x) := by
  have hadd (x y : Weight) : x + y = .ofModel (.pack (.add .binary64 (parts x) (parts y))) := rfl
  rw [hadd, hadd, hx]
  rcases hy.cases with ⟨-, hparts⟩ | ⟨-, hparts⟩ | ⟨-, m, e, ⟨hpos, hparts, -⟩, -⟩
  all_goals
    rw [hparts]
    exact ⟨.inl (unpack_pack_infinity .positive), .inl (unpack_pack_infinity .positive)⟩

theorem le_log2_of_le {m r t M : Nat} (hm : 2 ^ 52 ≤ m) (hM : m * 2 ^ t + r = M) :
    52 + t ≤ M.log2 := by
  have hle : 2 ^ (52 + t) ≤ M := by
    rw [pow_add, ← hM]
    exact (Nat.mul_le_mul_right _ hm).trans (Nat.le_add_right _ r)
  exact (Nat.le_log2 (Nat.ne_of_gt (Nat.lt_of_lt_of_le (Nat.two_pow_pos _) hle))).mpr hle

/-- Doubles that count two numbers add up to one that counts the sum. -/
theorem Counts.add {x y : Weight} {a b : Nat} (hx : Counts x a) (hy : Counts y b) :
    Counts (x + y) (a + b) := by
  have hadd : x + y = .ofModel (.pack (.add .binary64 (parts x) (parts y))) := rfl
  rcases hx.cases with ⟨rfl, hzero⟩ | ⟨ha, hinf⟩ | ⟨ha, m₁, e₁, hnormal₁, hlow₁, hvalue₁⟩
  · rw [hadd, hzero, unpacked_zero_add hy.parts_ne, pack_parts, Nat.zero_add]
    exact hy
  · exact counts_of_large (large_add_of_infinity hinf hy).1 (by omega)
  rcases hy.cases with ⟨rfl, hzero⟩ | ⟨hb, hinf⟩ | ⟨hb, m₂, e₂, hnormal₂, hlow₂, hvalue₂⟩
  · rw [hadd, hzero, unpacked_add_zero hx.parts_ne, pack_parts, Nat.add_zero]
    exact hx
  · exact counts_of_large (large_add_of_infinity hinf hx).2 (by omega)
  obtain ⟨hlog, hsum⟩ := add_normal hnormal₁ hnormal₂ (by omega)
  rw [hsum]
  have hfirst := le_log2_of_le hnormal₁.le (t := (e₁ - min e₁ e₂).toNat)
    (r := m₂ * 2 ^ (e₂ - min e₁ e₂).toNat) rfl
  have hsecond := le_log2_of_le hnormal₂.le (t := (e₂ - min e₁ e₂).toNat)
    (r := m₁ * 2 ^ (e₁ - min e₁ e₂).toNat) (Nat.add_comm _ _)
  rcases hvalue₁ with ⟨k₁, rfl, rfl⟩ | ⟨ha, he₁⟩
  · rcases hvalue₂ with ⟨k₂, rfl, rfl⟩ | ⟨hb, he₂⟩
    · have hmin : min (-k₁ : Int) (-k₂) = -(max k₁ k₂ : Nat) := by omega
      have hM : a * 2 ^ k₁ * 2 ^ (-k₁ - min (-k₁ : Int) (-k₂)).toNat +
          b * 2 ^ k₂ * 2 ^ (-k₂ - min (-k₁ : Int) (-k₂)).toNat = (a + b) * 2 ^ max k₁ k₂ := by
        rw [Nat.mul_assoc, Nat.mul_assoc, ← pow_add, ← pow_add, Nat.add_mul]
        congr 3 <;> omega
      rw [hM] at hlog ⊢
      rw [hmin]
      exact counts_roundWithAccuracy (by omega) hlog
    · exact counts_of_large (large_roundWithAccuracy hlog (by omega)) (by omega)
  · exact counts_of_large (large_roundWithAccuracy hlog (by omega)) (by omega)

/-- Natural doubles multiply to one that counts the product. -/
theorem counts_mul {a b : Nat} (ha : a < 2 ^ 53) (hb : b < 2 ^ 53) :
    Counts (ofNat a * ofNat b) (a * b) := by
  have hmul : ofNat a * ofNat b =
      .ofModel (.pack (.mul .binary64 (parts (ofNat a)) (parts (ofNat b)))) := rfl
  have hzero : Counts (.ofModel (.pack (.zero .positive))) 0 :=
    ⟨fun _ => rfl, fun h => absurd h (by norm_num)⟩
  rw [hmul]
  rcases Nat.eq_zero_or_pos a with rfl | hposa
  · rw [parts_ofNat_zero, Nat.zero_mul]
    rcases Nat.eq_zero_or_pos b with rfl | hposb
    · exact hzero
    · obtain ⟨hpos₂, h₂, -⟩ := parts_ofNat hposb hb
      rw [h₂]
      exact hzero
  rcases Nat.eq_zero_or_pos b with rfl | hposb
  · obtain ⟨hpos₁, h₁, -⟩ := parts_ofNat hposa ha
    rw [parts_ofNat_zero, Nat.mul_zero, h₁]
    exact hzero
  obtain ⟨hpos₁, h₁, hm₁, -⟩ := parts_ofNat hposa ha
  obtain ⟨hpos₂, h₂, hm₂, -⟩ := parts_ofNat hposb hb
  have hlog₁ : a.log2 ≤ 52 := log2_le ha
  have hlog₂ : b.log2 ≤ 52 := log2_le hb
  have hM : a * 2 ^ (52 - a.log2) * (b * 2 ^ (52 - b.log2)) =
      a * b * 2 ^ (52 - a.log2 + (52 - b.log2)) := by
    rw [pow_add]
    ring
  have he : (a.log2 - 52 : Int) + (b.log2 - 52) = -(52 - a.log2 + (52 - b.log2) : Nat) := by omega
  rw [h₁, h₂]
  simp only [UnpackedFloat.mul, hM, he]
  refine counts_roundWithAccuracy (Nat.mul_pos hposa hposb) ?_
  rw [← hM]
  exact (Nat.le_log2 (by positivity)).mpr (hm₁.trans (Nat.le_mul_of_pos_right _ (by positivity)))

end Neologism.Doubles
