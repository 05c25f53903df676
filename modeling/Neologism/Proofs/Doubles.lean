import Mathlib
import Neologism.CharClass

/-! # Doubles

What the arithmetic of weights does at its edges, by the parts that a double is made of. -/

namespace Neologism.Doubles

open Float.Model

/-- The sign, mantissa and exponent of a double, or what it is instead of a finite number. -/
def parts (x : Weight) : UnpackedFloat :=
  x.toModel.unpack

/-- A double is determined by its parts. -/
theorem pack_parts (x : Weight) : Float.ofModel (.pack (parts x)) = x := by
  apply Float.toBits_inj.mp
  exact UInt64.toBitVec_inj.mp (UnpackedFloat.pack_unpack_of_valid x.toModel.valid)

theorem eq_of_parts_eq {x y : Weight} (h : parts x = parts y) : x = y := by
  rw [← pack_parts x, h, pack_parts]

theorem parts_pack_nan : parts (.ofModel (.pack .notANumber)) = .notANumber :=
  @UnpackedFloat.unpack_packedNaN Format.binary64

theorem isFinite_eq_false_iff (x : Weight) :
    x.isFinite = false ↔ x.isNaN = true ∨ x.isInf = true := by
  change (parts x).isFinite = false ↔ (parts x).isNaN = true ∨ (parts x).isInf = true
  cases parts x <;> simp [UnpackedFloat.isFinite, UnpackedFloat.isNaN, UnpackedFloat.isInf]

/-- What equals zero is one of the two zeros. -/
theorem parts_of_beq_zero {z : Weight} (h : (z == 0.0) = true) :
    ∃ sign, parts z = .zero sign := by
  obtain ⟨-, -, rfl | ⟨rfl, h0⟩ | ⟨rfl, -⟩⟩ := Float.beq_iff_ne_nan_and_eq.mp h
  · exact ⟨.positive, rfl⟩
  · exact absurd h0 (by decide +kernel)
  · exact ⟨.negative, rfl⟩

theorem le_zero_iff (x : Weight) :
    x ≤ 0 ↔ (parts x).le (.zero .positive) = true :=
  decide_eq_true_iff (p := x.toModel ≤ (0 : Weight).toModel)

/-- Taking off a zero does not spend what is left. -/
theorem sub_zero_le_zero_iff (x : Weight) {z : Weight} (h : (z == 0.0) = true) :
    x - z ≤ 0 ↔ x ≤ 0 := by
  obtain ⟨sign, hz⟩ := parts_of_beq_zero h
  have hsub : x - z = .ofModel (.pack (.sub Format.binary64 (parts x) (parts z))) := rfl
  rw [hsub, hz]
  cases hx : parts x with
  | notANumber =>
      rw [le_zero_iff, le_zero_iff, hx]
      simp only [UnpackedFloat.sub, parts_pack_nan]
  | infinity s =>
      simp only [UnpackedFloat.sub, ← hx, pack_parts]
  | zero s =>
      rw [le_zero_iff, le_zero_iff, hx]
      cases s <;> cases sign <;> decide
  | finite s m e hm => simp only [UnpackedFloat.sub, ← hx, pack_parts]

end Neologism.Doubles
