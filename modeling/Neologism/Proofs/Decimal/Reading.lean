import Neologism.Proofs.Decimal.Shortest

/-! # Written weights read back

The text of a finite weight has its sign and the digits of its magnitude with a point among them or
with nothing but a whole part. Where the digits stand is all that the exponent of the decimal was
for, so reading the digits gives the magnitude again, and the sign is put back in front.

Main statements: `spells_positional` for the digits, and `magnitude_of_not_isNegative` and
`neg_magnitude` for the sign. -/

namespace Neologism.Decimal

open Float.Model Doubles UnpackedFloat

variable {x : Weight}

/-- The double with its sign bit cleared. -/
def magnitude (x : Weight) : Weight :=
  Float.ofBits (x.toBits &&& 0x7FFFFFFFFFFFFFFF)

theorem toNat_clearSign (bits : UInt64) :
    (bits &&& 0x7FFFFFFFFFFFFFFF).toNat = bits.toNat % 2 ^ 63 := by
  rw [UInt64.toNat_and]
  exact Nat.and_two_pow_sub_one_eq_mod _ 63

theorem unpackMantissa_clearSign (bits : UInt64) :
    @unpackMantissa .binary64 (bits &&& 0x7FFFFFFFFFFFFFFF).toBitVec =
      @unpackMantissa .binary64 bits.toBitVec := by
  apply BitVec.eq_of_toNat_eq
  rw [toNat_unpackMantissa, toNat_unpackMantissa, UInt64.toNat_toBitVec, UInt64.toNat_toBitVec,
    toNat_clearSign, fractionSize]
  omega

theorem unpackExponent_clearSign (bits : UInt64) :
    @unpackExponent .binary64 (bits &&& 0x7FFFFFFFFFFFFFFF).toBitVec =
      @unpackExponent .binary64 bits.toBitVec := by
  apply BitVec.eq_of_toNat_eq
  rw [toNat_unpackExponent, toNat_unpackExponent, UInt64.toNat_toBitVec, UInt64.toNat_toBitVec,
    toNat_clearSign, fractionSize]
  omega

theorem sign_clearSign (bits : UInt64) :
    Sign.ofBitVec (@unpackSign .binary64 (bits &&& 0x7FFFFFFFFFFFFFFF).toBitVec) =
      .positive := by
  apply sign_of_lt
  rw [UInt64.toNat_toBitVec, toNat_clearSign]
  exact Nat.mod_lt _ (by norm_num)

/-- Without the sign bit the bits stand for the absolute value. -/
theorem unpack_clearSign (x : Weight) :
    UnpackedFloat.unpack .binary64 (x.toBits &&& 0x7FFFFFFFFFFFFFFF).toBitVec = (parts x).abs := by
  change _ = (UnpackedFloat.unpack .binary64 x.toBits.toBitVec).abs
  simp only [UnpackedFloat.unpack, unpackMantissa_clearSign, unpackExponent_clearSign,
    sign_clearSign]
  split_ifs <;> rfl

theorem toBits_magnitude (h : x.isFinite = true) :
    (magnitude x).toBits = x.toBits &&& 0x7FFFFFFFFFFFFFFF := by
  have hvalid : Format.Valid .binary64 (x.toBits &&& 0x7FFFFFFFFFFFFFFF).toBitVec := by
    refine ⟨fun hlast => ?_⟩
    rw [unpackExponent_clearSign] at hlast
    exact absurd hlast (unpackExponent_ne_of_isFinite h)
  exact UInt64.toBitVec_inj.mp (UnpackedFloat.pack_unpack_of_valid hvalid)

theorem parts_magnitude (h : x.isFinite = true) : parts (magnitude x) = (parts x).abs := by
  change UnpackedFloat.unpack .binary64 (magnitude x).toBits.toBitVec = _
  rw [toBits_magnitude h, unpack_clearSign]

theorem isNegative_iff : isNegative x = true ↔ 2 ^ 63 ≤ x.toBits.toNat :=
  decide_eq_true_iff

/-- A double whose sign bit is clear is its own magnitude. -/
theorem magnitude_of_not_isNegative (h : isNegative x = false) : magnitude x = x := by
  have hlt : x.toBits.toNat < 2 ^ 63 := by
    rw [← not_le, ← isNegative_iff, h]
    exact Bool.false_ne_true
  have hbits : x.toBits &&& 0x7FFFFFFFFFFFFFFF = x.toBits := by
    apply UInt64.toNat_inj.mp
    rw [toNat_clearSign, Nat.mod_eq_of_lt hlt]
  rw [magnitude, hbits]
  exact pack_parts x

/-- A finite double whose sign bit is set is its magnitude with the other sign. -/
theorem neg_magnitude (hfinite : x.isFinite = true) (h : isNegative x = true) :
    -magnitude x = x := by
  have hneg : (parts x).abs.neg = parts x := by
    change (UnpackedFloat.unpack .binary64 x.toBits.toBitVec).abs.neg =
      UnpackedFloat.unpack .binary64 x.toBits.toBitVec
    simp only [UnpackedFloat.unpack, sign_of_le (b := x.toBits.toBitVec) (isNegative_iff.mp h)]
    rw [if_neg (unpackExponent_ne_of_isFinite hfinite)]
    split_ifs <;> rfl
  calc -magnitude x = .ofModel (.pack (parts (magnitude x)).neg) := rfl
    _ = .ofModel (.pack (parts x)) := by rw [parts_magnitude hfinite, hneg]
    _ = x := pack_parts x

theorem isFinite_abs {u : UnpackedFloat} (h : u.isFinite = true) : u.abs.isFinite = true := by
  cases u with
  | notANumber | infinity => cases h
  | zero | finite => rfl

theorem positive_magnitude (h : x.isFinite = true) (hzero : (magnitude x).toBits ≠ 0) :
    Positive (magnitude x) where
  finite := by
    change (parts (magnitude x)).isFinite = true
    rw [parts_magnitude h]
    exact isFinite_abs h
  sign := by
    rw [toBits_magnitude h, toNat_clearSign]
    exact Nat.mod_lt _ (by norm_num)
  ne_zero := hzero

theorem digitsValue_append_zeros (ds : List Char) (n : Nat) :
    digitsValue (ds ++ List.replicate n '0') = digitsValue ds * 10 ^ n := by
  change Nat.ofDigitChars 10 (ds ++ List.replicate n '0') 0 = Nat.ofDigitChars 10 ds 0 * 10 ^ n
  rw [Nat.ofDigitChars_append, Nat.ofDigitChars_replicate_zero, Nat.mul_comm]

theorem digitsValue_zeros_append (n : Nat) (ds : List Char) :
    digitsValue (List.replicate n '0' ++ ds) = digitsValue ds := by
  change Nat.ofDigitChars 10 (List.replicate n '0' ++ ds) 0 = Nat.ofDigitChars 10 ds 0
  rw [Nat.ofDigitChars_append, Nat.ofDigitChars_replicate_zero, Nat.mul_zero]

theorem isDigit_of_mem_toDigits (n : Nat) : ∀ c ∈ Nat.toDigits 10 n, c.isDigit = true :=
  fun _ hc => Nat.isDigit_of_mem_toDigits (by decide) (by decide) hc

theorem digitsValue_toDigits (n : Nat) : digitsValue (Nat.toDigits 10 n) = n :=
  Nat.ofDigitChars_ten_toDigits

/-- Digits with a point among them that read as the weight. -/
structure Spells (whole places : List Char) (x : Weight) : Prop where
  whole_ne_nil : whole ≠ []
  isDigit : ∀ c ∈ whole ++ places, c.isDigit = true
  toFloat_eq : toFloat ⟨digitsValue (whole ++ places), -places.length⟩ = x

/-- The digits with a point and a zero behind them, if there is no point. -/
def withPoint (cs : List Char) : List Char :=
  if cs.contains '.' then cs else cs ++ ['.', '0']

theorem withPoint_of_isDigit {ds : List Char} (h : ∀ c ∈ ds, c.isDigit = true) :
    withPoint ds = ds ++ ['.', '0'] := by
  have hpoint : ¬ ds.contains '.' = true := by
    intro hmem
    exact absurd (h _ (List.contains_iff_mem.mp hmem)) (by decide)
  rw [withPoint, if_neg hpoint]

/-- The digits of a decimal are written with the point where they read as the decimal does. -/
theorem spells_positional (d : Decimal) : ∃ whole places,
    withPoint (positional d).toList = whole ++ '.' :: places ∧ Spells whole places d.toFloat := by
  have hdigit := isDigit_of_mem_toDigits d.digits
  have hzeros : ∀ (n : Nat), ∀ c ∈ List.replicate n '0', c.isDigit = true := by
    intro n c hc
    rw [List.eq_of_mem_replicate hc]
    rfl
  rw [positional]
  split
  · next hexponent =>
      obtain ⟨k, hk⟩ := Int.eq_ofNat_of_zero_le hexponent
      have hall : ∀ c ∈ Nat.toDigits 10 d.digits ++ List.replicate k '0', c.isDigit = true := by
        intro c hc
        exact (List.mem_append.mp hc).elim (hdigit c) (hzeros k c)
      refine ⟨Nat.toDigits 10 d.digits ++ List.replicate k '0', ['0'], ?_, ?_, ?_, ?_⟩
      · rw [String.toList_ofList, hk, Int.toNat_natCast, withPoint_of_isDigit hall]
      · simp [Nat.toDigits_ne_nil]
      · intro c hc
        exact (List.mem_append.mp hc).elim (hall c) (hzeros 1 c)
      · apply toFloat_eq_of_value_eq
        have hone : ['0'] = List.replicate 1 '0' := rfl
        rw [hone, digitsValue_append_zeros, digitsValue_append_zeros, digitsValue_toDigits, value,
          value, hk]
        simp
  · next hexponent =>
      obtain ⟨k, hk⟩ : ∃ k : ℕ, d.exponent = -k := ⟨(-d.exponent).toNat, by omega⟩
      simp only [hk, neg_neg, Int.toNat_natCast]
      generalize hpadded : List.replicate (k + 1 - (Nat.toDigits 10 d.digits).length) '0' ++
        Nat.toDigits 10 d.digits = padded
      have hlength : k < padded.length := by
        rw [← hpadded, List.length_append, List.length_replicate]
        omega
      refine ⟨padded.take (padded.length - k), padded.drop (padded.length - k), ?_, ?_, ?_, ?_⟩
      · rw [String.toList_ofList, withPoint, if_pos (by simp)]
      · rw [← List.length_pos_iff, List.length_take]
        omega
      · rw [List.take_append_drop, ← hpadded]
        intro c hc
        exact (List.mem_append.mp hc).elim (hzeros _ c) (hdigit c)
      · apply toFloat_eq_of_value_eq
        have hplaces : (padded.drop (padded.length - k)).length = k := by
          rw [List.length_drop]
          omega
        rw [List.take_append_drop, hplaces, ← hpadded, digitsValue_zeros_append,
          digitsValue_toDigits, value, value, hk]

variable {whole places : List Char}

/-- What is taken while a property holds ends where the property first fails. -/
theorem takeWhile_dropWhile_append {p : Char → Bool} {ds : List Char}
    (h : ∀ d ∈ ds, p d = true) (rest : List Char) (hrest : ∀ c ∈ rest.head?, p c = false) :
    (ds ++ rest).takeWhile p = ds ∧ (ds ++ rest).dropWhile p = rest := by
  rw [List.takeWhile_append_of_pos h, List.dropWhile_append_of_pos h]
  cases rest with
  | nil => simp
  | cons c rest =>
      have hc : ¬ p c = true := by simp [hrest c rfl]
      rw [List.takeWhile_cons_of_neg hc, List.dropWhile_cons_of_neg hc, List.append_nil]
      exact ⟨rfl, rfl⟩

theorem signed_of_isDigit {c : Char} (h : c.isDigit = true) (cs : List Char) :
    signed (c :: cs) = (false, c :: cs) := by
  rw [signed.eq_3]
  all_goals
    rintro cs' ⟨⟩
    exact absurd h (by decide)

/-- Digits with a point among them are read as what they spell, with the sign that is in front. -/
theorem read?_of_signed (h : Spells whole places x) {negative : Bool} {cs : List Char}
    (hsigned : signed cs = (negative, whole ++ '.' :: places)) :
    read? cs = some (if negative then -x else x) := by
  have hwhole : ∀ d ∈ whole, d.isDigit = true :=
    fun d hd => h.isDigit d (List.mem_append_left _ hd)
  have hplaces : ∀ d ∈ places, d.isDigit = true :=
    fun d hd => h.isDigit d (List.mem_append_right _ hd)
  obtain ⟨htake, hdrop⟩ := takeWhile_dropWhile_append hwhole ('.' :: places) (by simp)
  have hempty : ¬ (whole.isEmpty = true ∧ places.isEmpty = true) :=
    fun hnil => h.whole_ne_nil (List.isEmpty_iff.mp hnil.1)
  simp only [read?, hsigned, htake, hdrop, List.takeWhile_eq_self_iff.mpr hplaces,
    List.dropWhile_eq_nil_iff.mpr hplaces, hempty, if_false, exponent?, Option.map_some, zero_sub,
    h.toFloat_eq]

theorem read?_spells (h : Spells whole places x) : read? (whole ++ '.' :: places) = some x := by
  obtain ⟨c, cs, rfl⟩ := List.exists_cons_of_ne_nil h.whole_ne_nil
  have hsigned : signed (c :: (cs ++ '.' :: places)) = (false, c :: (cs ++ '.' :: places)) :=
    signed_of_isDigit (h.isDigit c (by simp)) _
  rw [List.cons_append, read?_of_signed h hsigned, if_neg Bool.false_ne_true]

theorem read?_neg_spells (h : Spells whole places x) :
    read? ('-' :: (whole ++ '.' :: places)) = some (-x) := by
  have hsigned : signed ('-' :: (whole ++ '.' :: places)) = (true, whole ++ '.' :: places) := rfl
  rw [read?_of_signed h hsigned, if_pos rfl]

/-- What stands before the digits of a weight. -/
def signText (x : Weight) : List Char :=
  if isNegative x then ['-'] else []

theorem withPoint_signText_append (x : Weight) (cs : List Char) :
    withPoint (signText x ++ cs) = signText x ++ withPoint cs := by
  cases hsign : isNegative x <;> simp [signText, hsign, withPoint, apply_ite]

theorem spells_zero : Spells ['0'] ['0'] 0.0 where
  whole_ne_nil := List.cons_ne_nil _ _
  isDigit := by simp
  toFloat_eq := by
    rw [toFloat]
    exact if_pos (Or.inl rfl)

theorem text_of_isFinite (h : x.isFinite = true) :
    text x = (if isNegative x then "-" else "") ++
      if (magnitude x).toBits = 0 then "0" else positional (shortest (magnitude x)) := by
  obtain ⟨hnan, hinf⟩ : x.isNaN = false ∧ x.isInf = false := by
    simpa [h] using isFinite_eq_false_iff x
  rw [text, hnan, if_neg Bool.false_ne_true]
  dsimp only
  rw [hinf, if_neg Bool.false_ne_true, ← magnitude]
  split <;> rfl

/-- The text of a finite weight spells its magnitude behind its sign. -/
theorem spells_text (h : x.isFinite = true) : ∃ whole places,
    withPoint (text x).toList = signText x ++ (whole ++ '.' :: places) ∧
      Spells whole places (magnitude x) := by
  have hsign : (if isNegative x then "-" else "").toList = signText x := by
    rw [signText]
    split <;> rfl
  rw [text_of_isFinite h, String.toList_append, hsign, withPoint_signText_append]
  split
  · next hzero =>
      have hmagnitude : magnitude x = 0.0 := Float.toBits_inj.mp hzero
      exact ⟨['0'], ['0'], rfl, hmagnitude ▸ spells_zero⟩
  · next hzero =>
      obtain ⟨whole, places, hform, hspells⟩ := spells_positional (shortest (magnitude x))
      rw [toFloat_shortest (positive_magnitude h hzero)] at hspells
      exact ⟨whole, places, by rw [hform], hspells⟩

/-- The text of a finite weight reads back, also with a point put behind it. -/
theorem read?_withPoint_text (h : x.isFinite = true) :
    read? (withPoint (text x).toList) = some x := by
  obtain ⟨whole, places, hform, hspells⟩ := spells_text h
  rw [hform, signText]
  cases hsign : isNegative x with
  | false =>
      rw [magnitude_of_not_isNegative hsign] at hspells
      exact read?_spells hspells
  | true =>
      rw [if_pos rfl, List.singleton_append, read?_neg_spells hspells, neg_magnitude h hsign]

end Neologism.Decimal
