import Neologism.Random.Sampler
import Neologism.Proofs.Doubles.Signs

/-! # What a weighted choice comes to

Weights are looked at one by one before a choice: one that is below zero or undefined leaves no
choice. The total is looked at afterwards, and only its being infinite is a fault.

Main statements: `chooseWeighted_eq_error_iff`, and `chooseWeighted_eq_none_iff`, that a pick is
never out of range. -/

namespace Neologism

open Doubles

namespace Sampler

theorem runningSums_total (sum : Weight) (ws : List Weight) :
    (runningSums sum ws).2 = ws.foldl (· + ·) sum := by
  induction ws generalizing sum with
  | nil => rfl
  | cons w ws ih => exact ih (sum + w)

theorem any_below_zero_iff (ws : List Weight) :
    (ws.any fun w => !decide (0.0 ≤ w)) = true ↔ ¬ ∀ w ∈ ws, 0.0 ≤ w := by
  simp

theorem ofWeights_eq_error_iff {ws : List Weight} {fault : Fault} :
    ofWeights ws = .error fault ↔
      fault = .infiniteTotal ∧ (∀ w ∈ ws, 0.0 ≤ w) ∧ (ws.foldl (· + ·) 0.0).isInf = true := by
  cases ws with
  | nil =>
      have hzero : (0.0 : Weight).isInf = false := by decide
      simp [ofWeights, hzero]
  | cons w ws =>
      rcases hsums : runningSums w ws with ⟨sums, total⟩
      have htotal : total = ws.foldl (· + ·) w := by rw [← runningSums_total, hsums]
      rw [isInf_foldl_add_cons, ← htotal]
      simp only [ofWeights, hsums]
      by_cases hws : ∀ v ∈ w :: ws, 0.0 ≤ v
      · obtain ⟨hw, hrest⟩ := List.forall_mem_cons.mp hws
        have hsign : 0.0 ≤ total := htotal ▸ zero_le_foldl_add hw hrest
        rw [if_neg (fun hany => (any_below_zero_iff _).mp hany hws), and_iff_right hws,
          ← isFinite_eq_false_iff_isInf hsign]
        cases hfinite : total.isFinite with
        | true => by_cases hzero : (total == 0.0) = true <;> simp [hzero]
        | false =>
            have hzero : (total == 0.0) = false :=
              Bool.eq_false_iff.mpr fun hzero => by simp [isFinite_of_beq_zero hzero] at hfinite
            simp [hzero, eq_comm]
      · rw [if_pos ((any_below_zero_iff _).mpr hws)]
        exact iff_of_false (fun h => by cases h) fun h => hws h.2.1

end Sampler

variable {α : Type} {weight : α → Weight} {xs : List α} {src after : Source}

/-- What is chosen is one of the things that were to choose from. -/
theorem mem_of_chooseWeighted {x : α} (h : chooseWeighted weight xs src = (.ok (some x), after)) :
    x ∈ xs := by
  simp only [chooseWeighted] at h
  split at h
  · cases h
  · cases h
  · obtain ⟨hchosen, -⟩ := Prod.mk.inj h
    exact List.mem_of_getElem? (Except.ok.inj hchosen)

/-- A pick is the index of one of the things, so there is nothing chosen only where the weights leave
no choice. -/
theorem chooseWeighted_eq_none_iff :
    (chooseWeighted weight xs src).1 = .ok none ↔
      Sampler.ofWeights (xs.map weight) = .ok none := by
  cases hsampler : Sampler.ofWeights (xs.map weight) with
  | error fault => simp [chooseWeighted, hsampler]
  | ok sampler? =>
      cases sampler? with
      | none => simp [chooseWeighted, hsampler]
      | some sampler =>
          have hlt : (sampler.pick src).1 < xs.length := by
            have hlt := Sampler.indexOf_lt hsampler src.next.1
            rwa [List.length_map] at hlt
          simp [chooseWeighted, hsampler, List.getElem?_eq_getElem hlt]

/-- A choice fails only if the weights are in order and their total is infinite. -/
theorem chooseWeighted_eq_error_iff {fault : Fault} :
    (chooseWeighted weight xs src).1 = .error fault ↔
      fault = .infiniteTotal ∧ (∀ x ∈ xs, 0.0 ≤ weight x) ∧
        (xs.foldl (fun sum x => sum + weight x) 0.0).isInf = true := by
  have hfault : (chooseWeighted weight xs src).1 = .error fault ↔
      Sampler.ofWeights (xs.map weight) = .error fault := by
    simp only [chooseWeighted]
    split <;> simp_all
  rw [hfault, Sampler.ofWeights_eq_error_iff, List.forall_mem_map, List.foldl_map]

/-- The weight 1e308. Two of it are more than a double holds. -/
def immense : Weight :=
  Float.ofBits 0x7FE1CCF385EBC8A0

end Neologism
