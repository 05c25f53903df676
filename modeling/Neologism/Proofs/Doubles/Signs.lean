import Neologism.Proofs.Doubles.Rounding

/-! # Signs of weights

A weight that may be written is not below zero. Sums of such doubles are not below zero either;
they are never undefined, but they may overflow to infinity. Products may be undefined besides.

Main statements: `zero_le_add`, `zero_le_mul_or_isNaN`, and `isInf_foldl_add_cons`, by which a sum
overflows from zero on exactly if it does from its first summand on. -/

namespace Neologism.Doubles

open Float.Model UnpackedFloat

/-- Zero with either sign, or infinity or a finite number with the positive sign. -/
inductive NonNeg : UnpackedFloat → Prop where
  | zero (sign : Sign) : NonNeg (.zero sign)
  | infinity : NonNeg (.infinity .positive)
  | finite (m : Nat) (e : Int) (h : 0 < m) : NonNeg (.finite .positive m e h)

variable {u v : UnpackedFloat} {x y : Weight}

theorem nonNeg_iff_le (u : UnpackedFloat) :
    NonNeg u ↔ (UnpackedFloat.zero .positive).le u = true := by
  constructor
  · intro h
    cases h with
    | zero sign => cases sign <;> rfl
    | infinity | finite => rfl
  · intro h
    cases u with
    | zero sign => exact .zero sign
    | notANumber => cases h
    | infinity sign | finite sign =>
        cases sign with
        | positive => constructor
        | negative => cases h

theorem nonNeg_of_isFinite (hfinite : u.isFinite = true) (h : u.lt (.zero .positive) = false) :
    NonNeg u := by
  cases u with
  | zero sign => exact .zero sign
  | notANumber | infinity => cases hfinite
  | finite sign =>
      cases sign with
      | positive => constructor
      | negative => cases h

theorem nonNeg_unpack_packComponents {exponent : BitVec 11} {mantissa : BitVec 52}
    (h : exponent ≠ -1#11) :
    NonNeg (UnpackedFloat.unpack .binary64
      (packComponents .binary64 .positive exponent mantissa)) := by
  simp only [UnpackedFloat.unpack, unpackExponent_packComponents, unpackMantissa_packComponents,
    unpackSign_packComponents, Sign.ofBitVec_toBitVec]
  rw [if_neg h]
  split
  · split
    · exact .zero _
    · exact .finite _ _ _
  · exact .finite _ _ _

/-- Packing rounds to infinity at most, and never to what is undefined. -/
theorem NonNeg.unpack_pack (h : NonNeg u) : NonNeg (Float.Model.pack u).unpack := by
  cases h with
  | zero sign => cases sign <;> exact .zero _
  | infinity => exact unpack_pack_infinity .positive ▸ .infinity
  | finite m e hpos =>
      change NonNeg (UnpackedFloat.unpack .binary64 (UnpackedFloat.pack .binary64 _))
      simp only [UnpackedFloat.pack]
      split
      · change NonNeg (Float.Model.pack (.infinity .positive)).unpack
        exact unpack_pack_infinity .positive ▸ .infinity
      · next hbiased =>
          split
          · exact nonNeg_unpack_packComponents (ofNat_ne_neg_one (by omega))
          · exact nonNeg_unpack_packComponents (by decide)

theorem nonNeg_roundWithAccuracy (m : Nat) (e : Int) (accuracy : Accuracy) :
    NonNeg (roundWithAccuracy .binary64 .positive m e accuracy) := by
  simp only [roundWithAccuracy]
  split
  · exact .zero _
  · exact .finite _ _ _

theorem NonNeg.add (hu : NonNeg u) (hv : NonNeg v) :
    NonNeg (UnpackedFloat.add .binary64 u v) := by
  cases hu with
  | zero sign =>
      cases hv with
      | zero sign' => cases sign <;> cases sign' <;> exact .zero _
      | infinity => exact .infinity
      | finite => exact .finite _ _ _
  | infinity => cases hv <;> exact .infinity
  | finite m e hpos =>
      cases hv with
      | zero => exact .finite _ _ _
      | infinity => exact .infinity
      | finite m' e' hpos' =>
          simp only [UnpackedFloat.add, decreaseExponent, UnpackedFloat.normalize, Sign.apply]
          split
          · next hlt => exact absurd (Int.compare_eq_lt.mp hlt) (Int.not_lt.mpr (by positivity))
          · exact .zero _
          · exact nonNeg_roundWithAccuracy _ _ _

theorem NonNeg.mul (hu : NonNeg u) (hv : NonNeg v) :
    NonNeg (UnpackedFloat.mul .binary64 u v) ∨ UnpackedFloat.mul .binary64 u v = .notANumber := by
  cases hu with
  | zero =>
      cases hv with
      | zero | finite => exact .inl (.zero _)
      | infinity => exact .inr rfl
  | infinity =>
      cases hv with
      | zero => exact .inr rfl
      | infinity | finite => exact .inl .infinity
  | finite =>
      cases hv with
      | zero => exact .inl (.zero _)
      | infinity => exact .inl .infinity
      | finite => exact .inl (nonNeg_roundWithAccuracy _ _ _)

theorem nonNeg_parts_iff (x : Weight) : NonNeg (parts x) ↔ 0.0 ≤ x := by
  rw [nonNeg_iff_le]
  exact (decide_eq_true_iff (p := (0.0 : Weight).toModel ≤ x.toModel)).symm

theorem zero_le_of_isValid (h : x.isValid = true) : 0.0 ≤ x := by
  obtain ⟨hfinite, hlt⟩ := Bool.and_eq_true_iff.mp h
  rw [← nonNeg_parts_iff]
  apply nonNeg_of_isFinite hfinite
  rw [Bool.not_eq_true', decide_eq_false_iff_not] at hlt
  have hiff : x < 0.0 ↔ (parts x).lt (.zero .positive) = true :=
    decide_eq_true_iff (p := x.toModel < (0.0 : Weight).toModel)
  rwa [hiff, Bool.not_eq_true] at hlt

theorem parts_add (x y : Weight) :
    parts (x + y) = (Float.Model.pack (.add .binary64 (parts x) (parts y))).unpack :=
  rfl

theorem parts_mul (x y : Weight) :
    parts (x * y) = (Float.Model.pack (.mul .binary64 (parts x) (parts y))).unpack :=
  rfl

theorem zero_le_add (hx : 0.0 ≤ x) (hy : 0.0 ≤ y) : 0.0 ≤ x + y := by
  rw [← nonNeg_parts_iff] at *
  rw [parts_add]
  exact (hx.add hy).unpack_pack

theorem isNaN_iff : x.isNaN = true ↔ parts x = .notANumber :=
  UnpackedFloat.isNaN_iff

/-- A product is undefined or not below zero if no factor is below zero. -/
theorem zero_le_mul_or_isNaN (hx : 0.0 ≤ x) (hy : 0.0 ≤ y) :
    0.0 ≤ x * y ∨ (x * y).isNaN = true := by
  rw [← nonNeg_parts_iff] at *
  rw [isNaN_iff, parts_mul]
  rcases hx.mul hy with h | h
  · exact .inl h.unpack_pack
  · rw [h]
    exact .inr parts_pack_nan

/-- What is undefined stays undefined in products. -/
theorem isNaN_mul (h : x.isNaN = true) (y : Weight) : (x * y).isNaN = true := by
  rw [isNaN_iff] at *
  rw [parts_mul, h]
  exact parts_pack_nan

theorem isNaN_of_zero_le (h : 0.0 ≤ x) : x.isNaN = false := by
  rw [← nonNeg_parts_iff] at h
  change (parts x).isNaN = false
  generalize parts x = u at h
  cases h <;> rfl

/-- A weight that is not below zero is finite unless it is infinite. -/
theorem isFinite_eq_false_iff_isInf (h : 0.0 ≤ x) : x.isFinite = false ↔ x.isInf = true := by
  rw [isFinite_eq_false_iff, isNaN_of_zero_le h]
  simp only [Bool.false_eq_true, false_or]

theorem isFinite_of_beq_zero (h : (x == 0.0) = true) : x.isFinite = true := by
  obtain ⟨sign, hx⟩ := parts_of_beq_zero h
  change (parts x).isFinite = true
  rw [hx]
  rfl

/-- Zero with either sign. -/
def IsZero (x : Weight) : Prop :=
  ∃ sign, parts x = .zero sign

theorem add_of_isZero (hx : IsZero x) (hy : IsZero y) : IsZero (x + y) := by
  obtain ⟨⟨sign, hx⟩, ⟨sign', hy⟩⟩ := And.intro hx hy
  rw [IsZero, parts_add, hx, hy]
  cases sign <;> cases sign' <;> exact ⟨_, rfl⟩

theorem add_of_isZero_left (hx : IsZero x) (hy : ¬ IsZero y) : x + y = y := by
  obtain ⟨sign, hx⟩ := hx
  have hadd : x + y = .ofModel (.pack (.add .binary64 (parts x) (parts y))) := rfl
  rw [hadd, hx]
  have hsame : UnpackedFloat.add .binary64 (.zero sign) (parts y) = parts y := by
    cases hparts : parts y with
    | zero sign' => exact absurd ⟨sign', hparts⟩ hy
    | notANumber | infinity | finite => rfl
  rw [hsame, pack_parts]

/-- Whether a sum overflows does not depend on the sign of the zero that it starts from. -/
theorem isInf_foldl_add_of_isZero (hx : IsZero x) (hy : IsZero y) (ws : List Weight) :
    (ws.foldl (· + ·) x).isInf = (ws.foldl (· + ·) y).isInf := by
  induction ws generalizing x y with
  | nil =>
      obtain ⟨⟨sign, hx⟩, ⟨sign', hy⟩⟩ := And.intro hx hy
      change (parts x).isInf = (parts y).isInf
      rw [hx, hy]
      rfl
  | cons w ws ih =>
      by_cases hw : IsZero w
      · exact ih (add_of_isZero hx hw) (add_of_isZero hy hw)
      · rw [List.foldl_cons, List.foldl_cons, add_of_isZero_left hx hw, add_of_isZero_left hy hw]

theorem isInf_foldl_add_cons (w : Weight) (ws : List Weight) :
    ((w :: ws).foldl (· + ·) 0.0).isInf = (ws.foldl (· + ·) w).isInf := by
  have hzero : IsZero 0.0 := ⟨.positive, rfl⟩
  rw [List.foldl_cons]
  by_cases hw : IsZero w
  · exact isInf_foldl_add_of_isZero (add_of_isZero hzero hw) hw ws
  · rw [add_of_isZero_left hzero hw]

theorem zero_le_foldl_add {ws : List Weight} (hx : 0.0 ≤ x) (hws : ∀ w ∈ ws, 0.0 ≤ w) :
    0.0 ≤ ws.foldl (· + ·) x := by
  induction ws generalizing x with
  | nil => exact hx
  | cons w ws ih =>
      obtain ⟨hw, hws⟩ := List.forall_mem_cons.mp hws
      exact ih (zero_le_add hx hw) hws

end Neologism.Doubles
